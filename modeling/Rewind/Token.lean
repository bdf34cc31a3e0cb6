/-
Tokens.

A token has a kind, a text and the positions of its two ends.  Keywords and symbols are spelled
in one way only; the other kinds carry their text.

* `TokenKind` — the kinds of token;
* `TokenKind.spelling` — the characters of a keyword or symbol;
* `TokenKind.keyword?` — the keyword an identifier's letters spell, if any;
* `TokenKind.describe` — how an error message names a kind;
* `Token` — a kind, a text and where it stands.
-/
import Rewind.Position

namespace Rewind

/-- The kinds of token: names and literals, keywords, symbols, and the end of the text. -/
inductive TokenKind where
  | ident | int | float | str
  | kwLet | kwFunct | kwAsync | kwAwait | kwReturn | kwIf | kwElif | kwElse | kwLoop | kwWhile
  | kwFor | kwFrom | kwTo | kwStep | kwIn | kwSkip | kwBreak | kwContinue | kwTry | kwCatch | kwAs
  | kwFinally | kwRaise | kwBlueprint | kwInherits | kwIs | kwSuper | kwLoad | kwTrue | kwFalse
  | kwNull | kwAnd | kwOr | kwNot
  | assign | eq | neq | lt | gt | lte | gte | question | colon | lparen | rparen | lbracket
  | rbracket | lbrace | rbrace | comma | dot | plus | minus | star | slash | percent | caret
  | eof
  deriving DecidableEq, Inhabited

namespace TokenKind

/-- The keywords. -/
def keywords : List TokenKind :=
  [kwLet, kwFunct, kwAsync, kwAwait, kwReturn, kwIf, kwElif, kwElse, kwLoop, kwWhile, kwFor, kwFrom,
    kwTo, kwStep, kwIn, kwSkip, kwBreak, kwContinue, kwTry, kwCatch, kwAs, kwFinally, kwRaise,
    kwBlueprint, kwInherits, kwIs, kwSuper, kwLoad, kwTrue, kwFalse, kwNull, kwAnd, kwOr, kwNot]

/-- The characters a keyword or symbol is written with; empty for the other kinds. -/
def spelling : TokenKind → String
  | ident | int | float | str | eof => ""
  | kwLet => "let"
  | kwFunct => "funct"
  | kwAsync => "async"
  | kwAwait => "await"
  | kwReturn => "return"
  | kwIf => "if"
  | kwElif => "elif"
  | kwElse => "else"
  | kwLoop => "loop"
  | kwWhile => "while"
  | kwFor => "for"
  | kwFrom => "from"
  | kwTo => "to"
  | kwStep => "step"
  | kwIn => "in"
  | kwSkip => "skip"
  | kwBreak => "break"
  | kwContinue => "continue"
  | kwTry => "try"
  | kwCatch => "catch"
  | kwAs => "as"
  | kwFinally => "finally"
  | kwRaise => "raise"
  | kwBlueprint => "blueprint"
  | kwInherits => "inherits"
  | kwIs => "is"
  | kwSuper => "super"
  | kwLoad => "load"
  | kwTrue => "true"
  | kwFalse => "false"
  | kwNull => "null"
  | kwAnd => "and"
  | kwOr => "or"
  | kwNot => "not"
  | assign => "="
  | eq => "=="
  | neq => "!="
  | lt => "<"
  | gt => ">"
  | lte => "<="
  | gte => ">="
  | question => "?"
  | colon => ":"
  | lparen => "("
  | rparen => ")"
  | lbracket => "["
  | rbracket => "]"
  | lbrace => "\x7b"
  | rbrace => "\x7d"
  | comma => ","
  | dot => "."
  | plus => "+"
  | minus => "-"
  | star => "*"
  | slash => "/"
  | percent => "%"
  | caret => "^"

/-- The keyword spelled by `word`. -/
def keyword? (word : String) : Option TokenKind := keywords.find? (·.spelling == word)

/-- How messages name a kind: a keyword or symbol in quotes, the others by their class. -/
def describe : TokenKind → String
  | ident => "identifier"
  | int => "integer"
  | float => "float"
  | str => "string"
  | eof => "end of input"
  | k => "'" ++ k.spelling ++ "'"

/-- The name a token listing gives the kind. -/
def name : TokenKind → String
  | ident => "Id"
  | int => "Int"
  | float => "Float"
  | str => "Str"
  | assign => "Assign"
  | eq => "Eq"
  | neq => "Neq"
  | lt => "Lt"
  | gt => "Gt"
  | lte => "Lte"
  | gte => "Gte"
  | question => "Question"
  | colon => "Colon"
  | lparen => "LParen"
  | rparen => "RParen"
  | lbracket => "LBracket"
  | rbracket => "RBracket"
  | lbrace => "LBrace"
  | rbrace => "RBrace"
  | comma => "Comma"
  | dot => "Dot"
  | plus => "Plus"
  | minus => "Minus"
  | star => "Star"
  | slash => "Slash"
  | percent => "Percent"
  | caret => "Caret"
  | eof => "Eof"
  | k => k.spelling.capitalize

/-- An opening bracket of any shape. -/
def opens (k : TokenKind) : Bool := k == lparen || k == lbracket || k == lbrace

/-- A closing bracket of any shape. -/
def closes (k : TokenKind) : Bool := k == rparen || k == rbracket || k == rbrace

end TokenKind

/-- A token: `text` is the identifier, the literal as written, the decoded string, or the
spelling, and empty at the end of the source. -/
structure Token where
  kind : TokenKind
  text : String
  start : Position
  stop : Position
  deriving DecidableEq, Inhabited

namespace Token

def line (t : Token) : Nat := t.start.line

def column (t : Token) : Nat := t.start.column

/-- How a message names a token that was not expected. -/
def found (t : Token) : String :=
  match t.kind with
  | .ident | .int | .float => "'" ++ t.text ++ "'"
  | .str => "string \"" ++ t.text ++ "\""
  | k => k.describe

end Token

end Rewind
