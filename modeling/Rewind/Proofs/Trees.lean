/-
Programs as trees.

A program without blueprints, coroutines, modules and containers is a tree of statements over trees of
expressions.  It is printed in one way only: every statement on a line of its own that ends with a
colon, the words of a line with one blank between them, a body four columns right of its header.

* `Term`, `Terms` — expressions that may call `show` and the functions of the program;
* `Statement`, `Block`, `Definition`, `Program` — statements, bodies that are not empty, functions,
  which stand in no body, and programs;
* `Row` — one line of a printed program: how deep it is indented, and its words;
* `Statement.rows`, `Block.rows`, `Program.rows` — the lines of a tree;
* `Program.text` — the printed program;
* `Term.begins_words`, `Term.balanced_words` — what an expression begins with, and how a reader that
  looks for an `if` passes over it.
-/
import Rewind.Proofs.Grammar

namespace Rewind

namespace Word

def comma : Word := symbol .comma (by decide)
def colon : Word := symbol .colon (by decide)
def assign : Word := symbol .assign (by decide)
def «let» : Word := keyword .kwLet (by decide)
def funct : Word := keyword .kwFunct (by decide)
def «return» : Word := keyword .kwReturn (by decide)
def elif : Word := keyword .kwElif (by decide)
def loop : Word := keyword .kwLoop (by decide)
def «while» : Word := keyword .kwWhile (by decide)
def «for» : Word := keyword .kwFor (by decide)
def «from» : Word := keyword .kwFrom (by decide)
def «to» : Word := keyword .kwTo (by decide)
def step : Word := keyword .kwStep (by decide)
def skip : Word := keyword .kwSkip (by decide)
def «break» : Word := keyword .kwBreak (by decide)
def «continue» : Word := keyword .kwContinue (by decide)
def «raise» : Word := keyword .kwRaise (by decide)
def «try» : Word := keyword .kwTry (by decide)
def «catch» : Word := keyword .kwCatch (by decide)
def as : Word := keyword .kwAs (by decide)
def «finally» : Word := keyword .kwFinally (by decide)

end Word

namespace Tree

/-! ### Expressions -/

/-- What a call names: the built-in `show`, or a function of the program, whose name is that of no
built-in function. -/
inductive Callee where
  | display
  | function (x : Identifier) (h : Native.builtin? x.text = none)

mutual

/-- An expression.  Parentheses may stand around any part; those that have to are not part of the
tree. -/
inductive Term where
  | literal (l : Literal)
  | name (x : Identifier)
  | paren (t : Term)
  | not (t : Term)
  | negative (t : Term)
  | binary (op : Operator) (a b : Term)
  | conditional (a c b : Term)
  | call (f : Callee) (args : Terms)

/-- The arguments of a call. -/
inductive Terms where
  | nil
  | cons (t : Term) (rest : Terms)

end

/-- The name of the built-in `show`. -/
def showing : Identifier :=
  ⟨'s', ['h', 'o', 'w'], by decide, List.all_eq_true.1 (by decide), by decide +kernel⟩

def Callee.name : Callee → Identifier
  | display => showing
  | function x _ => x

/-- The level of precedence, from 1 for a conditional to 11 for an operand. -/
def Term.level : Term → Nat
  | .literal _ | .name _ | .paren _ | .call .. => 11
  | .not _ | .negative _ => 9
  | .binary op _ _ => op.level
  | .conditional .. => 1

mutual

/-- The words of an expression, without parentheses around it. -/
def Term.words : Term → List Word
  | .literal l => [l.word]
  | .name x => [.name x]
  | .paren t => enclosed true t.words
  | .not t => .not :: enclosed (t.level < 9) t.words
  | .negative t => .minus :: enclosed (t.level < 9) t.words
  | .binary op a b =>
    enclosed (a.level < op.left) a.words ++
      (op.words ++ enclosed (op.encloses b.level b.words) b.words)
  | .conditional a c b =>
    enclosed (a.level < 2) a.words ++ (.if :: (enclosed (c.level < 2) c.words ++ .else :: b.words))
  | .call f args => .name f.name :: .lparen :: (args.words ++ [.rparen])

/-- The words of arguments, with commas between them. -/
def Terms.words : Terms → List Word
  | .nil => []
  | .cons t rest => t.words ++ rest.more

/-- The words of arguments that follow another one. -/
def Terms.more : Terms → List Word
  | .nil => []
  | .cons t rest => .comma :: (t.words ++ rest.more)

end

/-! ### Statements -/

mutual

/-- A statement that may stand in a body.  An expression is a statement only as a call. -/
inductive Statement where
  | assign (x : Identifier) (t : Term)
  | call (f : Callee) (args : Terms)
  | skip
  | stop
  | again
  | raise (t : Term)
  | result (t : Option Term)
  | branch (c : Term) (body : Block) (rest : Branches)
  | whileLoop (c : Term) (body : Block)
  | rangeLoop (x : Identifier) (first last : Term) (step : Option Term) (body : Block)
  | attempt (body : Block) (clauses : Clauses)

/-- What may follow the first branch. -/
inductive Branches where
  | done
  | elif (c : Term) (body : Block) (rest : Branches)
  | otherwise (body : Block)

/-- What has to follow the body of a `try`: a handler, which may bind the exception, or a clean-up. -/
inductive Clauses where
  | handler (x : Option Identifier) (body : Block) (rest : Cleanup)
  | cleanup (body : Block)

/-- What may follow a handler. -/
inductive Cleanup where
  | none
  | finally (body : Block)

/-- The statements of a body, at least one. -/
inductive Block where
  | one (s : Statement)
  | cons (s : Statement) (rest : Block)

end

/-- A function: its name, its parameters, which have different names, and its body. -/
structure Definition where
  name : Identifier
  params : List Identifier
  distinct : (params.map Identifier.text).Nodup
  body : Block

/-- What stands in no body. -/
inductive Item where
  | statement (s : Statement)
  | function (d : Definition)

abbrev Program := List Item

/-! ### Lines -/

/-- A line: how many bodies it stands in, and its words before the colon at its end. -/
structure Row where
  depth : Nat
  words : List Word

namespace Row

/-- The blanks a line begins with. -/
def indent (r : Row) : List Char := List.replicate (4 * r.depth) ' '

def text (r : Row) : List Char := r.indent ++ (line (r.words ++ [.colon]) ++ ['\n'])

end Row

/-- Lines one after the other. -/
def print (rows : List Row) : List Char := rows.flatMap Row.text

/-- The words of the bound of a loop that may be left out. -/
def stepWords : Option Term → List Word
  | none => []
  | some t => .step :: t.words

/-- The words of parameters, with commas between them. -/
def paramWords : List Identifier → List Word
  | [] => []
  | [x] => [.name x]
  | x :: xs => .name x :: .comma :: paramWords xs

/-- The words behind `catch`. -/
def handlerWords : Option Identifier → List Word
  | none => [.catch]
  | some x => [.catch, .as, .name x]

/-- The words of a `return`, whose value may be left out. -/
def resultWords : Option Term → List Word
  | none => [.return]
  | some t => .return :: .colon :: t.words

def rangeWords (x : Identifier) (first last : Term) (step : Option Term) : List Word :=
  [.loop, .colon, .for, .name x, .from] ++ (first.words ++ (.to :: (last.words ++ stepWords step)))

mutual

/-- The lines of a statement in `k` bodies. -/
def Statement.rows (k : Nat) : Statement → List Row
  | .assign x t => [⟨k, [.let, .colon, .name x, .assign] ++ t.words⟩]
  | .call f args => [⟨k, (Term.call f args).words⟩]
  | .skip => [⟨k, [.skip]⟩]
  | .stop => [⟨k, [.break]⟩]
  | .again => [⟨k, [.continue]⟩]
  | .raise t => [⟨k, [.raise, .colon] ++ t.words⟩]
  | .result t => [⟨k, resultWords t⟩]
  | .branch c body rest => ⟨k, [.if, .colon] ++ c.words⟩ :: (body.rows (k + 1) ++ rest.rows k)
  | .whileLoop c body => ⟨k, [.loop, .colon, .while] ++ c.words⟩ :: body.rows (k + 1)
  | .rangeLoop x first last step body =>
    ⟨k, rangeWords x first last step⟩ :: body.rows (k + 1)
  | .attempt body clauses => ⟨k, [.try]⟩ :: (body.rows (k + 1) ++ clauses.rows k)

def Branches.rows (k : Nat) : Branches → List Row
  | .done => []
  | .elif c body rest => ⟨k, [.elif, .colon] ++ c.words⟩ :: (body.rows (k + 1) ++ rest.rows k)
  | .otherwise body => ⟨k, [.else]⟩ :: body.rows (k + 1)

def Clauses.rows (k : Nat) : Clauses → List Row
  | .handler x body rest => ⟨k, handlerWords x⟩ :: (body.rows (k + 1) ++ rest.rows k)
  | .cleanup body => ⟨k, [.finally]⟩ :: body.rows (k + 1)

def Cleanup.rows (k : Nat) : Cleanup → List Row
  | .none => []
  | .finally body => ⟨k, [.finally]⟩ :: body.rows (k + 1)

def Block.rows (k : Nat) : Block → List Row
  | .one s => s.rows k
  | .cons s rest => s.rows k ++ rest.rows k

end

/-- The first line of a function. -/
def Definition.header (d : Definition) : Row :=
  ⟨0, [.funct, .colon, .name d.name, .lparen] ++ (paramWords d.params ++ [.rparen])⟩

def Item.rows : Item → List Row
  | statement s => s.rows 0
  | function d => d.header :: d.body.rows 1

def Program.rows (P : Program) : List Row := P.flatMap Item.rows

/-- The printed program. -/
def Program.text (P : Program) : List Char := print P.rows

/-! ### What the words of an expression look like -/

namespace Term

theorem level_bounds (t : Term) : 1 ≤ t.level ∧ t.level ≤ 11 := by
  cases t with
  | binary op a b =>
    have := op.level_bounds
    simp only [level]
    omega
  | _ => exact ⟨by simp [level], by simp [level]⟩

/-- An expression begins with an operand or a sign, one at least as tight as a power with no sign. -/
theorem begins_words (t : Term) : Begins (t.level < 10) t.words := by
  cases t with
  | literal l => exact ⟨_, [], rfl, Expr.begins_literal l⟩
  | name x => exact ⟨_, [], rfl, rfl⟩
  | paren t => exact ⟨_, _, rfl, rfl⟩
  | not t => exact ⟨_, _, rfl, rfl⟩
  | negative t => exact ⟨_, _, rfl, rfl⟩
  | call f args => exact ⟨_, _, rfl, rfl⟩
  | conditional a c b => exact (begins_enclosed fun _ => (begins_words a).signed).append _
  | binary op a b =>
    have first := begins_words a
    refine (begins_enclosed fun hb => ?_).append _
    rw [decide_eq_false_iff_not, Nat.not_lt] at hb
    by_cases hop : op = .caret
    · subst hop
      have tight : ¬ a.level < 10 := Nat.not_lt.2 (Nat.le_trans (by decide) hb)
      rwa [decide_eq_false tight] at first
    · have loose : op.level < 10 := by
        cases op <;> first | decide | exact absurd rfl hop
      rw [show decide ((binary op a b).level < 10) = true from decide_eq_true loose]
      exact first.signed

theorem words_ne_nil (t : Term) : t.words ≠ [] := by
  obtain ⟨w, vs, h, -⟩ := t.begins_words
  simp [h]

end Term

mutual

/-- Inside brackets a reader that looks for an `if` passes over every expression, elsewhere over all
but conditionals. -/
theorem Term.balanced_words (t : Term) :
    (∀ depth, Balanced (depth + 1) t.words) ∧ (2 ≤ t.level → Balanced 0 t.words) := by
  -- a part of a tree is passed over at any depth, since it has parentheses where it is conditional
  have part {t : Term} (ht : (∀ depth, Balanced (depth + 1) t.words) ∧
      (2 ≤ t.level → Balanced 0 t.words)) {b : Bool} (hb : b = false → 2 ≤ t.level) (depth : Nat) :
      Balanced depth (enclosed b t.words) :=
    balanced_enclosed (ht.1 depth) fun h => match depth with
      | 0 => ht.2 (hb h)
      | depth + 1 => ht.1 depth
  have both {ws : List Word} {n : Nat} (h : ∀ depth, Balanced depth ws) :
      (∀ depth, Balanced (depth + 1) ws) ∧ (2 ≤ n → Balanced 0 ws) :=
    ⟨fun depth => h (depth + 1), fun _ => h 0⟩
  have tight {ℓ n : Nat} (hℓ : 2 ≤ ℓ) (h : decide (n < ℓ) = false) : 2 ≤ n := by
    rw [decide_eq_false_iff_not, Nat.not_lt] at h
    exact Nat.le_trans hℓ h
  cases t with
  | literal l => exact both fun depth => .cons (passed_of_plain (plain_literal l) depth) rfl
  | name x => exact both fun depth => .cons (passed_of_plain rfl depth) rfl
  | paren t => exact both (part t.balanced_words fun h => Bool.noConfusion h)
  | not t =>
    exact both fun depth =>
      .cons (passed_of_plain rfl depth) (part t.balanced_words (tight (by decide)) depth)
  | negative t =>
    exact both fun depth =>
      .cons (passed_of_plain rfl depth) (part t.balanced_words (tight (by decide)) depth)
  | binary op a b =>
    have hleft : 2 ≤ op.left := by cases op <;> decide
    have hright : 2 ≤ op.right := by cases op <;> decide
    refine both fun depth => (part a.balanced_words (tight hleft) depth).append
      ((balanced_operator op depth).append (part b.balanced_words (fun h => tight hright ?_) depth))
    exact (Bool.or_eq_false_iff.1 h).1
  | conditional a c b =>
    refine ⟨fun depth => (part a.balanced_words (tight (by decide)) _).append
      (.cons (passed_inside rfl depth) ((part c.balanced_words (tight (by decide)) _).append
        (.cons (passed_inside rfl depth) (b.balanced_words.1 depth)))),
      fun h => absurd h (by decide : ¬ 2 ≤ 1)⟩
  | call f args =>
    exact both fun depth => .cons (passed_of_plain rfl depth)
      (balanced_enclosed (b := true) (args.balanced_words depth) fun h => Bool.noConfusion h)

theorem Terms.balanced_words (ts : Terms) (depth : Nat) : Balanced (depth + 1) ts.words := by
  cases ts with
  | nil => rfl
  | cons t rest => exact (t.balanced_words.1 depth).append (rest.balanced_more depth)

theorem Terms.balanced_more (ts : Terms) (depth : Nat) : Balanced (depth + 1) ts.more := by
  cases ts with
  | nil => rfl
  | cons t rest =>
    exact .cons (passed_inside rfl depth)
      ((t.balanced_words.1 depth).append (rest.balanced_more depth))

end

end Tree

end Rewind
