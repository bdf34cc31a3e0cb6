/-
The files a run can see.

A file tree is the list of the regular files below a directory, the one relative paths start from.
A directory is there exactly if a file is below it.

* `FileTree`, `FileTree.find` — the tree, and what stands at a path;
* `FileTree.isFile`, `FileTree.canonical` — whether a path names a file, and its one full name;
* `FileTree.readText` — the text of a file, or why it cannot be read.
-/
import Rewind.Files.Path

namespace Rewind

/-- Why a file cannot be read. -/
inductive ReadFault where
  | absent
  | isDirectory
  | notDirectory
  | notText
  deriving DecidableEq

namespace ReadFault

def message : ReadFault → String
  | absent => "No such file or directory (os error 2)"
  | isDirectory => "Is a directory (os error 21)"
  | notDirectory => "Not a directory (os error 20)"
  | notText => "stream did not contain valid UTF-8"

end ReadFault

/-- The regular files by their full components, and the components of the current directory. -/
structure FileTree where
  current : List String
  files : List (List String × ByteArray)

/-- What stands at a path. -/
inductive Found where
  | file (place : List String) (bytes : ByteArray)
  | directory (place : List String)
  | blocked (fault : ReadFault)

namespace FileTree

instance : Inhabited FileTree := ⟨⟨[], []⟩⟩

/-- The contents of the regular file at a place. -/
def bytes? (t : FileTree) (place : List String) : Option ByteArray :=
  (t.files.find? (·.1 == place)).map (·.2)

/-- A place with a file below it, or on the way to the current directory. -/
def isDirectory (t : FileTree) (place : List String) : Bool :=
  place.isPrefixOf t.current || t.files.any fun (file, _) => place.isPrefixOf file && place != file

/-- What stands at a place. -/
def stand (t : FileTree) (place : List String) : Found :=
  match t.bytes? place with
  | some bytes => .file place bytes
  | none => if t.isDirectory place then .directory place else .blocked .absent

/-- Follows components from a directory. -/
def walk (t : FileTree) : List String → List String → Found
  | place, [] => .directory place
  | place, c :: rest =>
    let place :=
      if c = "" ∨ c = "." then place else if c = ".." then place.dropLast else place ++ [c]
    match t.stand place with
    | .directory place => walk t place rest
    | .file place bytes => if rest.isEmpty then .file place bytes else .blocked .notDirectory
    | .blocked fault => .blocked fault

/-- What stands at a path, seen from the current directory. -/
def find (t : FileTree) (path : String) : Found :=
  if path.isEmpty then .blocked .absent
  else walk t (if Path.isAbsolute path then [""] else t.current) (Path.pieces path '/')

def isFile (t : FileTree) (path : String) : Bool :=
  match t.find path with
  | .file _ _ => true
  | _ => false

/-- The full name of what stands at a path, in which no component leads back. -/
def canonical (t : FileTree) (path : String) : String :=
  match t.find path with
  | .file place _ | .directory place => "/".intercalate place
  | .blocked _ => path

/-- The text of the file at a path. -/
def readText (t : FileTree) (path : String) : Except ReadFault String :=
  match t.find path with
  | .file _ bytes =>
    match String.fromUTF8? bytes with
    | some text => .ok text
    | none => .error .notText
  | .directory _ => .error .isDirectory
  | .blocked fault => .error fault

end FileTree

end Rewind
