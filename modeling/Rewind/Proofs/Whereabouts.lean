/-
Where modules are looked for.

A `load` looks first in the directory of the machine.  While the body of a module runs that is the
directory of its file, and nothing else changes it.  So wherever a part of a program begins, modules
are looked for first in the directory of the innermost module that is still loading, or in that of
the program if none is.  Which file the `load` stands in makes no difference: in a function that is
called when the loading of its file is over, it looks in the directory of somebody else.

* `fileIn`, `fileElsewhere` — what a name stands for in one directory, and behind the first;
* `resolveModule_eq` — a `load` finds what stands in the first directory before all else;
* `looks_at_home` — in all runs of a session that is the directory of the innermost module;
* `looked_elsewhere` — a `load` that does not look beside the file it stands in.
-/
import Rewind.Proofs.Aftermath

namespace Rewind

open Eval

/-- The file that a module's name stands for in a directory. -/
def fileIn (files : FileTree) (dir name : String) : Option String :=
  ((candidates name).map (Path.join dir)).find? files.isFile

/-- The file that a module's name stands for in the directories that come behind the first. -/
def fileElsewhere (env : Environment) (name : String) : Option String :=
  (Path.join (env.home.getD ".") "lib" :: env.searchPaths).findSome?
    (fileIn env.files · name)

/-- The file that stands in the first directory goes before all others. -/
theorem resolveModule_eq (m : Machine) (name : String) :
    resolveModule m name =
      ((fileIn m.environment.files (m.directory.getD ".") name).or
        (fileElsewhere m.environment name)).map m.environment.files.canonical := by
  unfold resolveModule searchDirectories
  dsimp only
  rw [List.find?_flatMap, List.findSome?_cons]
  unfold fileElsewhere fileIn
  cases ((candidates name).map (Path.join (m.directory.getD "."))).find?
    m.environment.files.isFile <;> rfl

/-- Whatever a watch says of machines whose directory is not that of the innermost module that is
loading, nor that of the program if there is none, it says nothing in a run of a session: nothing
begins there.  So what any `load` looks for first is a file in that directory, and any other file
only if there is none. -/
theorem looks_at_home {env : Environment} {m : Machine} (hm : Session env m) (text : String)
    (fuel : Nat) :
    (∀ w : Watch, w.Discreet →
      (∀ q m', m'.directory = homeDirectory m.directory m'.modules → w.begins q m' = "") →
        m.runWatched w text fuel = m.runSource text fuel) ∧
    ∀ m' name, m'.directory = homeDirectory m.directory m'.modules →
      resolveModule m' name =
        ((fileIn m'.environment.files ((homeDirectory m.directory m'.modules).getD ".") name).or
          (fileElsewhere m'.environment name)).map m'.environment.files.canonical := by
  refine ⟨fun w hw hs => ?_, fun m' name h => h ▸ resolveModule_eq m' name⟩
  have agree : Watch.Agree {} w ⟨m.directory, [], m, false⟩ := fun q m' h => hs q m' h.1.directory
  rw [← m.runWatched_silent text fuel]
  exact Machine.runWatched_congr (fun _ _ => rfl) hw agree (hm.resting.grounds nofun)
    hm.resting.owner text fuel

/-- A module with a function that loads the module beside it, a module of the same name beside the
program. -/
def sideBySide : FileTree where
  current := ["", "w"]
  files := [
    (["", "w", "a", "f.ecc"], "funct: g():\n    load: h\n    show(h.x)\n".toUTF8),
    (["", "w", "a", "h.ecc"], "let: x = 1\n".toUTF8),
    (["", "w", "h.ecc"], "let: x = 2\n".toUTF8)]

/-- A program that calls the function. -/
def callsLoader : String := "load: \"a/f\" as f\nf.g()\n"

/-- A watch that says where it is, unless it is where the modules say. -/
def astray : Watch where
  begins _ m := if m.directory = homeDirectory none m.modules then "" else m.directory.getD "."

theorem looks_at_home_of_sideBySide :
    Session { files := sideBySide } (Machine.new { files := sideBySide }) ∧
    (Machine.new { files := sideBySide }).runWatched astray callsLoader 12 =
      (Machine.new { files := sideBySide }).runSource callsLoader 12 ∧
    account ((Machine.new { files := sideBySide }).runSource callsLoader 12) = ("2\n", none) :=
  ⟨.new, (looks_at_home .new callsLoader 12).1 astray (fun _ _ => rfl) fun _ _ h => if_pos h,
    by decide +kernel⟩

/-- The `load` stands in a file with a module of that name beside it, and loads another one. -/
theorem looked_elsewhere :
    fileIn sideBySide "/w/a" "h" = some "/w/a/h.ecc" ∧
    account ((Machine.new { files := sideBySide }).runSource callsLoader 12) = ("2\n", none) := by
  decide +kernel

end Rewind
