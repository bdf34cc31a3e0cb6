/-
The files a command may read.

A program names the modules it loads in its text, and a module the ones it loads itself.  From the
texts known so far these are the paths at which more of them may stand.

* `loadNames` — the names in the `load` statements of a text;
* `Invocation.reach` — the paths to look at next;
* `FileTree.add` — a tree with one more file.
-/
import Rewind.CommandLine.Execute

namespace Rewind

/-- The tokens of a text from `p` on, up to the first fault. -/
def tokensBeforeFault (p : Position) (cs : List Char) : List Token :=
  match h : scan p cs with
  | .error _ => []
  | .ok (t, rest) =>
    if ht : t.kind = .eof then []
    else
      have := length_scan_lt h ht
      t :: tokensBeforeFault t.stop rest
termination_by cs.length

/-- A kind of token that can stand in a `load` statement. -/
def isLoadPart (k : TokenKind) : Bool :=
  [.colon, .lparen, .rparen, .comma, .kwAs, .kwFrom, .ident, .str].contains k

/-- The names in `load` statements among some tokens. -/
def loadNamesIn : List Token → List String
  | [] => []
  | t :: rest =>
    if t.kind = .kwLoad then
      let parts := rest.takeWhile (isLoadPart ·.kind)
      (parts.filter fun p => p.kind == .ident || p.kind == .str).map (·.text) ++ loadNamesIn rest
    else loadNamesIn rest

/-- The names in the `load` statements of a text, and possibly some more. -/
def loadNames (text : String) : List String :=
  loadNamesIn (tokensBeforeFault (Position.origin 0) text.toList)

namespace FileTree

/-- The place a path leads to if every component on the way is a directory. -/
def place (t : FileTree) (path : String) : List String :=
  (path.splitOn "/").foldl
    (fun place c =>
      if c = "" ∨ c = "." then place else if c = ".." then place.dropLast else place ++ [c])
    (if Path.isAbsolute path then [""] else t.current)

/-- The tree with a file at a path. -/
def add (t : FileTree) (path : String) (bytes : ByteArray) : FileTree :=
  { t with files := (t.place path, bytes) :: t.files }

/-- The directory of each file of the tree. -/
def directories (t : FileTree) : List String :=
  (t.files.map fun (place, _) => "/".intercalate place.dropLast).eraseDups

end FileTree

namespace Invocation

/-- The files a command reads apart from modules. -/
def namedFiles (env : Variables) (i : Invocation) : List String :=
  let settings :=
    match i.config.orElse fun _ => env.lookup "ECHOC_CONFIG_PATH" with
    | some path => [path]
    | none => Settings.defaultFiles
  match i.command with
  | .run path | .tokens path => path :: settings
  | .config => settings

/-- The paths at which the modules of the texts known so far may stand. -/
def modulePaths (files : FileTree) (settings : Settings) : List String :=
  let texts := files.files.filterMap fun (_, bytes) => String.fromUTF8? bytes
  let names := (texts.flatMap loadNames).eraseDups
  let m : Machine :=
    { environment := { home := settings.home, searchPaths := settings.searchPaths } }
  let directories := (files.directories ++ Eval.searchDirectories m).eraseDups
  directories.flatMap fun dir =>
    names.flatMap fun name => (Eval.candidates name).map (Path.join dir)

/-- The paths to look at next, given the files known so far. -/
def reach (files : FileTree) (env : Variables) (i : Invocation) : List String :=
  let modules :=
    match i.command, Settings.load files env i.overrides with
    | .run _, .ok settings => modulePaths files settings
    | _, _ => []
  (i.namedFiles env ++ modules).filter fun path => (files.bytes? (files.place path)).isNone

end Invocation

end Rewind
