/-
Paths.

A path is a text whose components are separated by slashes.  These are the operations on the text
alone; which files there are is another matter.

* `Path.pieces` — what stands between the places of a character;
* `Path.join` — a path below a directory;
* `Path.parent?` — the path without its last component;
* `Path.fileName?`, `Path.fileStem?`, `Path.extension?` — the last component, and its two parts.
-/
namespace Rewind.Path

/-- The pieces of a text between the places of a character. -/
def pieces (path : String) (c : Char) : List String := (path.toList.splitOn c).map String.ofList

/-- A path from the root. -/
def isAbsolute (path : String) : Bool := path.startsWith "/"

/-- The path `path` seen from the directory `dir`. -/
def join (dir path : String) : String :=
  if isAbsolute path || dir.isEmpty then path
  else if dir.endsWith "/" then dir ++ path
  else dir ++ "/" ++ path

/-- The components between the slashes, without empty ones and without the dots that stay where
they are; a dot in front counts. -/
def components (path : String) : List String :=
  match pieces path '/' with
  | [] => []
  | first :: rest =>
    let tail := rest.filter fun c => c != "" && c != "."
    if first.isEmpty then tail else first :: tail

/-- The last component, unless it leads upwards. -/
def fileName? (path : String) : Option String :=
  match (components path).getLast? with
  | some ".." | some "." | none => none
  | some name => some name

/-- The last component without its extension.  A dot in front starts no extension. -/
def fileStem? (path : String) : Option String := do
  let name ← fileName? path
  match (pieces name '.').dropLast with
  | [] | [""] => some name
  | parts => some (".".intercalate parts)

/-- What stands behind the last dot of the last component; a dot in front starts no extension. -/
def extension? (path : String) : Option String := do
  let name ← fileName? path
  match pieces name '.' with
  | [_] | ["", _] => none
  | parts => parts.getLast?

/-- The path without its last component; nothing is above the root or the empty path. -/
def parent? (path : String) : Option String :=
  match components path with
  | [] => none
  | parts =>
    let above := "/".intercalate parts.dropLast
    some (if isAbsolute path then "/" ++ above else above)

end Rewind.Path
