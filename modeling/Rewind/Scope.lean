/-
Scopes.

A scope binds names to values and stands inside another scope, except the outermost one.  Names
are looked up from the inside out.  The scope of the members of a blueprint knows that blueprint.

* `Scope` — the bindings of one scope and the scope it stands in;
* `Scopes.resolve` — the nearest scope of a chain that binds a name;
* `Scopes.lookup`, `Scopes.define`, `Scopes.assign`, `Scopes.clear` — reading and writing.
-/
import Rewind.Dict
import Rewind.Value

namespace Rewind

/-- Local bindings, the enclosing scope, and the blueprint whose members the bindings are, if they
are members. -/
structure Scope where
  vars : Dict Value := {}
  parent : Option (Ref .scope) := none
  blueprint : Option (Ref .blueprint) := none
  deriving Inhabited

/-- All scopes of a session. -/
abbrev Scopes := Arena .scope Scope

namespace Scopes

/-- The blueprint whose members are bound in a scope. -/
def blueprint? (s : Scopes) (r : Ref .scope) : Option (Ref .blueprint) := (s.get r).blueprint

/-- The enclosing scope. -/
def parent (s : Scopes) (r : Ref .scope) : Option (Ref .scope) := (s.get r).parent

/-- The local value of a name. -/
def getLocal? (s : Scopes) (r : Ref .scope) (name : String) : Option Value :=
  (s.get r).vars.get? name

def hasLocal (s : Scopes) (r : Ref .scope) (name : String) : Bool :=
  (s.get r).vars.contains name

/-- The local bindings in the order they were made. -/
def entries (s : Scopes) (r : Ref .scope) : List (String × Value) := (s.get r).vars.toList

/-- The nearest of the first `steps` scopes from `r` outwards that binds `name`. -/
def resolveWithin (s : Scopes) (name : String) : (steps : Nat) → Ref .scope → Option (Ref .scope)
  | 0, _ => none
  | steps + 1, r =>
    if s.hasLocal r name then some r
    else match s.parent r with
      | some outer => resolveWithin s name steps outer
      | none => none

/-- The nearest scope from `r` outwards that binds `name`.  A scope is made inside an older one, so
the chain is no longer than the number of scopes up to `r`. -/
def resolve (s : Scopes) (r : Ref .scope) (name : String) : Option (Ref .scope) :=
  resolveWithin s name (r.index + 1) r

/-- The value of a name, from the inside out. -/
def lookup (s : Scopes) (r : Ref .scope) (name : String) : Option Value :=
  match s.resolve r name with
  | some owner => s.getLocal? owner name
  | none => none

/-- Binds a name in this scope. -/
def define (s : Scopes) (r : Ref .scope) (name : String) (value : Value) : Scopes :=
  s.modify r fun scope => { scope with vars := scope.vars.set name value }

/-- Changes the nearest binding of a name, or binds it in this scope if there is none. -/
def assign (s : Scopes) (r : Ref .scope) (name : String) (value : Value) : Scopes :=
  s.define ((s.resolve r name).getD r) name value

/-- Drops the bindings of a scope. -/
def clear (s : Scopes) (r : Ref .scope) : Scopes :=
  s.modify r fun scope => { scope with vars := scope.vars.drain.2 }

end Scopes

end Rewind
