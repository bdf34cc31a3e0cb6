/-
What trees mean.

A tree is interpreted by recursion over it, on a store of bindings and of what has been printed.  A
name stands for a scalar or for a function; a body stands in the bindings around it, and the body of a
function in those outside of all bodies.  The places that failures report are those of the printed
tree, so the position that a tree begins at goes along.

The interpreter has fuel for its calls and for the rounds of its loops, and gives nothing where that
runs out.  It also gives nothing where a program leaves the fragment: where a function is taken as a
value, and where a loop counts with floats.

* `Binding`, `Store` — what names stand for; `Store.find`, `Store.assign`, `Store.define`;
* `Halt`, `Course` — what ends an evaluation early, and evaluation on the store;
* `Term.eval` — expressions, where `apply` calls the functions of the program;
* `whileRounds`, `countRounds` — the rounds of loops;
* `Statement.exec`, `Block.exec` — statements, which end normally or with a signal;
* `invoke` — calls, down to a limit of depth; `Program.run` — programs.
-/
import Rewind.Proofs.Trees

namespace Rewind.Tree

/-! ### Stores -/

/-- What a name stands for: a scalar, or a function and the place where its body begins. -/
inductive Binding where
  | scalar (v : Value)
  | function (d : Definition) (start : Position)

abbrev Naming := String → Option Binding

/-- The same names, but for one. -/
def Naming.set (F : Naming) (x : String) (b : Binding) : Naming := fun y => if y = x then some b else F y

/-- Nothing is named. -/
def Naming.empty : Naming := fun _ => none

/-- The bindings around a statement, the innermost first, those outside of all bodies, and what has
been printed. -/
structure Store where
  locals : List Naming := []
  globals : Naming := .empty
  output : String := ""

/-- The bindings with that of a name changed where it is first bound. -/
def rebind (x : String) (b : Binding) : List Naming → Option (List Naming)
  | [] => none
  | F :: Fs => if (F x).isSome then some (F.set x b :: Fs) else (rebind x b Fs).map (F :: ·)

namespace Store

/-- What a name stands for, from the inside out. -/
def find (σ : Store) (x : String) : Option Binding :=
  match σ.locals.findSome? (· x) with
  | some b => some b
  | none => σ.globals x

/-- Binds a name in the innermost place. -/
def define (σ : Store) (x : String) (b : Binding) : Store :=
  match σ.locals with
  | [] => { σ with globals := σ.globals.set x b }
  | F :: Fs => { σ with locals := F.set x b :: Fs }

/-- Changes the nearest binding of a name, or binds it in the innermost place if there is none. -/
def assign (σ : Store) (x : String) (b : Binding) : Store :=
  match rebind x b σ.locals with
  | some locals => { σ with locals }
  | none => if (σ.globals x).isSome then { σ with globals := σ.globals.set x b } else σ.define x b

end Store

/-! ### Evaluation -/

/-- What ends an evaluation early: an exception, or a failure that nothing catches. -/
inductive Halt where
  | raised (r : Raised)
  | failed (f : Failure)

/-- Evaluation on the store. -/
abbrev Course := ExceptT Halt (StateT Store Option)

/-- The exception of a complaint about what stands at `p`. -/
def Halt.complaint (p : Position) (c : Complaint) : Halt := .raised ⟨.str c.message, p.line, p.column⟩

/-- What an operator at `p` that goes wrong ends an evaluation with. -/
def Halt.upset (p : Position) : Upset → Halt
  | .complaint c => .complaint p c
  | .tooLong count => .failed (.system (.repeatTooLong count p.line))

namespace Course

/-- There is no value. -/
def stuck {α : Type} : Course α := fun _ => none

/-- The value of an operator at `p`. -/
def settle (p : Position) : Except Upset Value → Course Value
  | .ok v => return v
  | .error u => throw (.upset p u)

/-- Evaluation with an exception handed on as a signal. -/
def caught (x : Course (Option Signal)) : Course (Option Signal) := fun σ =>
  match x σ with
  | some (.error (.raised r), σ) => some (.ok (some (.raised r)), σ)
  | r => r

/-- Evaluation inside a new place for bindings. -/
def nested {α : Type} (x : Course α) : Course α := fun σ =>
  (x { σ with locals := .empty :: σ.locals }).map fun (r, σ) => (r, { σ with locals := σ.locals.tail })

/-- Evaluation where only the bindings `F` and those outside of all bodies are seen. -/
def within {α : Type} (F : Naming) (x : Course α) : Course α := fun σ =>
  (x { σ with locals := [F] }).map fun (r, σ') => (r, { σ' with locals := σ.locals })

/-! #### Runs -/

variable {α β : Type} {σ : Store}

theorem run_bind (x : Course α) (f : α → Course β) (σ : Store) :
    (x >>= f) σ = match x σ with
      | none => none
      | some (.error e, σ) => some (.error e, σ)
      | some (.ok a, σ) => f a σ := by
  show (x σ >>= fun r => _ : Option _) = _
  cases x σ with
  | none => rfl
  | some r =>
    obtain ⟨_ | a, σ⟩ := r <;> rfl

/-- What looks at the store first. -/
theorem run_get (f : Store → Course α) (σ : Store) :
    ((get : Course Store) >>= f) σ = f σ σ := rfl

end Course

open Course

/-! ### Expressions -/

/-- How a function with its body at a position is called with arguments, at a position. -/
abbrev Apply := Definition → Position → List Value → Position → Course Value

/-- What is called by a name at `p`; nothing is looked up for `show`. -/
def Callee.find (p : Position) : Callee → Course (Option Binding)
  | .display => return none
  | .function x _ => do
    match (← get).find x.text with
    | some b => return some b
    | none => throw (.complaint p (.undefinedVariable x.text))

/-- Prints scalars on one line. -/
def display (vs : List Value) : Course Value := do
  modify fun σ => { σ with output := σ.output ++ (" ".intercalate (vs.map Value.written) ++ "\n") }
  return .null

/-- Calls what has been found, at the place of the parenthesis. -/
def Apply.call (apply : Apply) (vs : List Value) (site : Position) : Option Binding → Course Value
  | none => display vs
  | some (.function d start) => apply d start vs site
  | some (.scalar v) => throw (.complaint site (.notCallable v.kind))

mutual

/-- The value of an expression printed at `p`: operands from left to right, the condition of a
conditional first. -/
def Term.eval (apply : Apply) : Term → Position → Course Value
  | .literal l, _ => return l.value
  | .name x, p => do
    match (← get).find x.text with
    | some (.scalar v) => return v
    | some (.function ..) => stuck
    | none => throw (.complaint p (.undefinedVariable x.text))
  | .paren t, p => t.eval apply (inside true p)
  | .not t, p => do
    let v ← t.eval apply (inside (t.level < 9) (p.past [.not]))
    return .bool !v.counts
  | .negative t, p => do
    let v ← t.eval apply (inside (t.level < 9) (p.past [.minus]))
    settle p (opposite v)
  | .binary op a b, p => do
    let v ← a.eval apply (inside (a.level < op.left) p)
    if op.settledBy v then return v
    let q := p.past (enclosed (a.level < op.left) a.words)
    let w ← b.eval apply (inside (op.encloses b.level b.words) (q.past op.words))
    settle q (op.apply v w)
  | .conditional a c b, p => do
    let q := (p.past (enclosed (a.level < 2) a.words)).past [.if]
    let v ← c.eval apply (inside (c.level < 2) q)
    if v.counts then a.eval apply (inside (a.level < 2) p)
    else b.eval apply ((q.past (enclosed (c.level < 2) c.words)).past [.else])
  | .call f args, p => do
    let callee ← f.find p
    let site := p.past [.name f.name]
    let vs ← args.eval apply (site.past [.lparen])
    apply.call vs site callee

/-- The values of arguments, the first of which is printed at `p`. -/
def Terms.eval (apply : Apply) : Terms → Position → Course (List Value)
  | .nil, _ => return []
  | .cons t rest, p => do
    let v ← t.eval apply p
    let vs ← rest.eval apply ((p.past t.words).past [.comma])
    return v :: vs

end

/-! ### Loops -/

/-- The rounds of a loop with a condition, which stands at `p`. -/
def whileRounds (p : Position) (condition : Course Value) (body : Course (Option Signal)) :
    (rounds : Nat) → Course (Option Signal)
  | 0 => stuck
  | rounds + 1 => do
    match ← condition with
    | .bool true =>
      match ← body with
      | none | some .again => whileRounds p condition body rounds
      | some .stop => return none
      | some s => return some s
    | .bool false => return none
    | v => throw (.complaint p (.conditionNotBoolean v.kind))

/-- The rounds of a loop over integers, from `i` on; it ends where the next one does not fit. -/
def countRounds (x : String) (last step : Int) (body : Course (Option Signal)) :
    (rounds : Nat) → Int → Course (Option Signal)
  | 0, _ => stuck
  | rounds + 1, i => do
    if (if 0 < step then i ≤ last else last ≤ i) then
      modify (·.define x (.scalar (.int i)))
      match ← body with
      | none | some .again =>
        if minInt ≤ i + step ∧ i + step ≤ maxInt then countRounds x last step body rounds (i + step)
        else return none
      | some .stop => return none
      | some s => return some s
    else return none

/-- The bounds of a loop as integers, the first of which stands at `p`. -/
def integerBounds (p : Position) (first last step : Value) : Course (Int × Int × Int) :=
  match [first, last, step].find? (·.number?.isNone) with
  | some v => throw (.complaint p (.boundNotNumber v.kind))
  | none =>
    match first, last, step with
    | .int first, .int last, .int step =>
      if step = 0 then throw (.complaint p .zeroStep) else return (first, last, step)
    | _, _, _ => stuck

/-! ### Statements -/

/-- What is around a statement: how functions are called, how many rounds a loop may have, and whether
there is a loop or a function. -/
structure Setting where
  apply : Apply
  rounds : Nat
  inLoop : Bool := false
  inFunction : Bool := false

/-- The place of the first word of a line in `k` bodies that begins at `p`. -/
def indented (p : Position) (k : Nat) : Position := p.after (List.replicate (4 * k) ' ')

/-- The place behind some lines. -/
def below (p : Position) (rows : List Row) : Position := p.after (print rows)

/-- The end of a loop is the end of no body around it. -/
def loopSignal (S : Setting) (p : Position) (k : TokenKind) (s : Signal) : Course (Option Signal) :=
  if S.inLoop then return some s
  else throw (.failed (.malformed (.outsideLoop k) p.line p.column))

mutual

/-- Runs a statement in `k` bodies whose first line begins at `p`. -/
def Statement.exec (S : Setting) (k : Nat) : Statement → Position → Course (Option Signal)
  | .assign x t, p => do
    let v ← t.eval S.apply ((indented p k).past [.let, .colon, .name x, .assign])
    modify (·.assign x.text (.scalar v))
    return none
  | .call f args, p => do
    let _ ← (Term.call f args).eval S.apply (indented p k)
    return none
  | .skip, _ => return none
  | .stop, p => loopSignal S (indented p k) .kwBreak .stop
  | .again, p => loopSignal S (indented p k) .kwContinue .again
  | .raise t, p => do
    let q := indented p k
    match ← t.eval S.apply (q.past [.raise, .colon]) with
    | .str s => return some (.raised ⟨.str s, q.line, q.column⟩)
    | v => throw (.complaint q (.raisedNonString v.kind))
  | .result t, p => do
    let q := indented p k
    if !S.inFunction then throw (.failed (.malformed .returnOutsideFunction q.line q.column))
    match t with
    | some t => return some (.result (← t.eval S.apply (q.past [.return, .colon])))
    | none => return some (.result .null)
  | .branch c body rest, p => do
    let v ← c.eval S.apply ((indented p k).past [.if, .colon])
    let q := below p [⟨k, [.if, .colon] ++ c.words⟩]
    if v.counts then body.exec S (k + 1) q else rest.exec S k (below q (body.rows (k + 1)))
  | .whileLoop c body, p =>
    let q := (indented p k).past [.loop, .colon, .while]
    whileRounds q (c.eval S.apply q)
      (body.exec { S with inLoop := true } (k + 1) (below p [⟨k, [.loop, .colon, .while] ++ c.words⟩]))
      S.rounds
  | .rangeLoop x first last step body, p => do
    let q := (indented p k).past [.loop, .colon, .for, .name x, .from]
    let r := (q.past first.words).past [.to]
    let a ← first.eval S.apply q
    let b ← last.eval S.apply r
    let c ← match step with
      | some t => t.eval S.apply ((r.past last.words).past [.step])
      | none => pure (.int 1)
    let (a, b, c) ← integerBounds q a b c
    nested (countRounds x.text b c
      (body.exec { S with inLoop := true } (k + 1) (below p [⟨k, rangeWords x first last step⟩]))
      S.rounds a)
  | .attempt body clauses, p => do
    let q := below p [⟨k, [.try]⟩]
    let ended ← body.exec S (k + 1) q
    clauses.exec S k ended (below q (body.rows (k + 1)))

/-- Runs the branches behind one that was not taken. -/
def Branches.exec (S : Setting) (k : Nat) : Branches → Position → Course (Option Signal)
  | .done, _ => return none
  | .elif c body rest, p => do
    let v ← c.eval S.apply ((indented p k).past [.elif, .colon])
    let q := below p [⟨k, [.elif, .colon] ++ c.words⟩]
    if v.counts then body.exec S (k + 1) q else rest.exec S k (below q (body.rows (k + 1)))
  | .otherwise body, p => body.exec S (k + 1) (below p [⟨k, [.else]⟩])

/-- Runs what is behind the body of a `try` that ended with `pending`. -/
def Clauses.exec (S : Setting) (k : Nat) :
    Clauses → (pending : Option Signal) → Position → Course (Option Signal)
  | .handler x body rest, pending, p => do
    let q := below p [⟨k, handlerWords x⟩]
    let ended ← match pending with
      | some (.raised r) => nested do
        match x with
        | some x => modify (·.define x.text (.scalar r.value))
        | none => pure ()
        body.exec S (k + 1) q
      | other => pure other
    rest.exec S k ended (below q (body.rows (k + 1)))
  | .cleanup body, pending, p => do
    match ← body.exec S (k + 1) (below p [⟨k, [.finally]⟩]) with
    | none => return pending
    | some s => return some s

/-- Runs what is behind a handler; a signal that leaves it takes the place of the pending one. -/
def Cleanup.exec (S : Setting) (k : Nat) :
    Cleanup → (pending : Option Signal) → Position → Course (Option Signal)
  | .none, pending, _ => return pending
  | .finally body, pending, p => do
    match ← body.exec S (k + 1) (below p [⟨k, [.finally]⟩]) with
    | none => return pending
    | some s => return some s

/-- Runs the statements of a body one after the other, up to the first one that ends with a signal. -/
def Block.exec (S : Setting) (k : Nat) : Block → Position → Course (Option Signal)
  | .one s, p => caught (s.exec S k p)
  | .cons s rest, p => do
    match ← caught (s.exec S k p) with
    | none => rest.exec S k (below p (s.rows k))
    | some signal => return some signal

end

/-! ### Programs -/

/-- The bindings of parameters to arguments. -/
def bound : List Identifier → List Value → Naming
  | x :: xs, v :: vs => (bound xs vs).set x.text (.scalar v)
  | _, _ => .empty

/-- What a call gives whose body ended so. -/
def returned : Option Signal → Course Value
  | some (.result v) => return v
  | some (.raised r) => throw (.raised r)
  | _ => return .null

/-- Calls a function from inside `depth` other calls. -/
def invoke (limit : Nat) : (fuel depth : Nat) → Apply
  | 0, _ => fun _ _ _ _ => stuck
  | fuel + 1, depth => fun d start args site => do
    if limit ≤ depth then throw (.failed (.system (.callDepth limit d.name.text site.line)))
    if d.params.length < args.length then
      throw (.complaint site (.tooManyArguments d.name.text d.params.length args.length))
    match d.params.drop args.length with
    | x :: _ => throw (.complaint site (.missingArgument x.text d.name.text))
    | [] =>
      let S := { apply := invoke limit fuel (depth + 1), rounds := fuel, inFunction := true }
      returned (← within (bound d.params args) (d.body.exec S 1 start))

/-- Runs what is left of a program from `p` on. -/
def Program.exec (S : Setting) : Program → Position → Course (Option Signal)
  | [], _ => return none
  | .statement s :: rest, p => do
    match ← caught (s.exec S 0 p) with
    | none => exec S rest (below p (s.rows 0))
    | some signal => return some signal
  | .function d :: rest, p => do
    let q := below p [d.header]
    modify (·.define d.name.text (.function d q))
    exec S rest (below q (d.body.rows 1))

/-- How a program ends that ended so: an exception that nobody caught is a failure. -/
def ending : Except Halt (Option Signal) → Except Failure Unit
  | .error (.failed f) => .error f
  | .error (.raised r) | .ok (some (.raised r)) =>
    .error (.uncaught r.value.written r.line r.column)
  | .ok _ => .ok ()

/-- Runs a program; no more than `limit` calls may be inside each other. -/
def Program.run (limit fuel : Nat) (P : Program) : Option (Except Failure Unit × Store) :=
  (P.exec { apply := invoke limit fuel 0, rounds := fuel } (Position.origin 0) {}).map fun (r, σ) =>
    (ending r, σ)

end Rewind.Tree
