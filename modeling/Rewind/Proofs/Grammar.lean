/-
Expressions as trees.

A program holds its expressions as text only.  Here they are trees over literals and names, printed
with one blank between two words and no more parentheses than the levels of precedence ask for.  A
tree also has a value of its own, found by recursion over the tree: operands from left to right, the
condition of a conditional first, and nothing that a short circuit leaves out.

* `Literal`, `Operator`, `Expr` — the trees;
* `Expr.level`, `Expr.words` — the level of precedence of a tree, from 1 for a conditional to 11 for
  an operand, and the words it is printed as;
* `Operator.apply`, `Expr.eval` — the values of operators and of trees, and where they go wrong;
* `TokenKind.joins` — the level at which a token continues the expression before it;
* `Expr.begins_words` — a tree begins with an operand or a sign;
* `Expr.balanced_words` — a reader that looks for an `if` passes over every tree but a conditional;
* `Expr.scalar_apply` — an operator makes a scalar of scalars.
-/
import Rewind.Machine
import Rewind.Proofs.Wording

namespace Rewind

/-! ### Trees -/

/-- A literal of a scalar.  A text has no hole to be filled. -/
inductive Literal where
  | int (ds : Digits) (h : natOfDigits ds.chars ≤ maxInt)
  | float (whole fraction : Digits)
  | bool (b : Bool)
  | null
  | text (cs : List Char) (h : Template.findHole cs = none)

inductive Operator where
  | or | and | eq | neq | is | isNot | lt | gt | lte | gte | plus | minus | star | slash | percent
  | caret
  deriving DecidableEq

/-- An expression.  Parentheses may stand around any part; those that have to are not part of the
tree. -/
inductive Expr where
  | literal (l : Literal)
  | name (x : Identifier)
  | paren (e : Expr)
  | not (e : Expr)
  | negative (e : Expr)
  | binary (op : Operator) (a b : Expr)
  | conditional (a c b : Expr)

namespace Word

def lparen : Word := symbol .lparen (by decide)
def rparen : Word := symbol .rparen (by decide)
def not : Word := keyword .kwNot (by decide)
def minus : Word := symbol .minus (by decide)
def «if» : Word := keyword .kwIf (by decide)
def «else» : Word := keyword .kwElse (by decide)

end Word

namespace Literal

def word : Literal → Word
  | int ds h => .int ds h
  | float whole fraction => .float whole fraction
  | bool true => .keyword .kwTrue (by decide)
  | bool false => .keyword .kwFalse (by decide)
  | null => .keyword .kwNull (by decide)
  | text cs _ => .text cs

def value : Literal → Value
  | int ds _ => .int (natOfDigits ds.chars)
  | float whole fraction =>
    .float (Float.ofScientific (natOfDigits (whole.chars ++ fraction.chars)) true
      fraction.chars.length)
  | bool b => .bool b
  | null => .null
  | text cs _ => .str (String.ofList cs)

end Literal

namespace Operator

/-- The word an operator begins with. -/
def word : Operator → Word
  | or => .keyword .kwOr (by decide)
  | and => .keyword .kwAnd (by decide)
  | eq => .symbol .eq (by decide)
  | neq => .symbol .neq (by decide)
  | is | isNot => .keyword .kwIs (by decide)
  | lt => .symbol .lt (by decide)
  | gt => .symbol .gt (by decide)
  | lte => .symbol .lte (by decide)
  | gte => .symbol .gte (by decide)
  | plus => .symbol .plus (by decide)
  | minus => .minus
  | star => .symbol .star (by decide)
  | slash => .symbol .slash (by decide)
  | percent => .symbol .percent (by decide)
  | caret => .symbol .caret (by decide)

def words : Operator → List Word
  | isNot => [isNot.word, .not]
  | op => [op.word]

def level : Operator → Nat
  | or => 2
  | and => 3
  | eq | neq => 4
  | is | isNot => 5
  | lt | gt | lte | gte => 6
  | plus | minus => 7
  | star | slash | percent => 8
  | caret => 10

/-- The loosest level of the left operand.  A power groups to the right. -/
def left : Operator → Nat
  | caret => 11
  | op => op.level

/-- The loosest level of the right operand.  An exponent may begin with a sign. -/
def right : Operator → Nat
  | caret => 9
  | op => op.level + 1

/-- A right operand needs parentheses if it is looser than its place.  Behind `is` it also needs
them if it begins with `not`, which would be read as a part of the operator. -/
def encloses (op : Operator) (level : Nat) (ws : List Word) : Bool :=
  level < op.right || (op == .is && (ws.head?.map Word.kind == some .kwNot))

end Operator

/-- Words in parentheses, where `b` says that they are needed. -/
def enclosed (b : Bool) (ws : List Word) : List Word :=
  if b then .lparen :: ws ++ [.rparen] else ws

/-- The place of the first word inside. -/
def inside (b : Bool) (p : Position) : Position := if b then p.past [.lparen] else p

namespace Expr

def level : Expr → Nat
  | literal _ | name _ | paren _ => 11
  | not _ | negative _ => 9
  | binary op _ _ => op.level
  | conditional .. => 1

/-- The words of an expression, without parentheses around it. -/
def words : Expr → List Word
  | literal l => [l.word]
  | name x => [.name x]
  | paren e => enclosed true e.words
  | not e => .not :: enclosed (e.level < 9) e.words
  | negative e => .minus :: enclosed (e.level < 9) e.words
  | binary op a b =>
    enclosed (a.level < op.left) a.words ++
      (op.words ++ enclosed (op.encloses b.level b.words) b.words)
  | conditional a c b =>
    enclosed (a.level < 2) a.words ++
      (.if :: (enclosed (c.level < 2) c.words ++ .else :: b.words))

/-- The text of an expression on one line. -/
def text (e : Expr) : List Char := line e.words

end Expr

/-! ### Values -/

namespace Value

/-- Numbers, booleans, null and strings. -/
def scalar : Value → Bool
  | int _ | float _ | bool _ | null | str _ => true
  | _ => false

/-- Whether a scalar counts as true. -/
def counts : Value → Bool
  | null => false
  | bool b => b
  | int n => n != 0
  | float x => x != 0
  | str s => !s.isEmpty
  | _ => true

/-- A scalar as text. -/
def written : Value → String
  | int n => toString n
  | float x => Decimal.floatText x
  | bool b => if b then "true" else "false"
  | null => "null"
  | str s => s
  | _ => ""

end Value

/-- How an operator goes wrong: with an exception, or with a text too long to be made, which ends
the run. -/
inductive Upset where
  | complaint (c : Complaint)
  | tooLong (count : Int)

/-- What stops an evaluation at `p`. -/
def Upset.at (p : Position) : Upset → Interrupt
  | complaint c => .raised ⟨.str c.message, p.line, p.column⟩
  | tooLong count => .fault (.failure (.system (.repeatTooLong count p.line)))

/-- `+`, `-` and `*`: exact on integers, or an overflow; on floats as soon as one operand is one. -/
def arithmetic (op : String) (exact : Int → Int → Int) (approximate : Float → Float → Float) :
    Value → Value → Except Upset Value
  | .int x, .int y =>
    if minInt ≤ exact x y ∧ exact x y ≤ maxInt then .ok (.int (exact x y))
    else .error (.complaint (.overflow op))
  | a, b =>
    match a.number?, b.number? with
    | some x, some y => .ok (.float (approximate x y))
    | _, _ => .error (.complaint (.unsupported op a.kind b.kind))

/-- `<`, `>`, `<=` and `>=`, on numbers only. -/
def ordered (op : String) (exact : Int → Int → Bool) (approximate : Float → Float → Bool) :
    Value → Value → Except Upset Value
  | .int x, .int y => .ok (.bool (exact x y))
  | a, b =>
    match a.number?, b.number? with
    | some x, some y => .ok (.bool (approximate x y))
    | _, _ => .error (.complaint (.incomparable a.kind b.kind op))

/-- The text `s` written `count` times. -/
def copies (s : String) (count : Int) : Except Upset Value :=
  if count < 0 then .error (.complaint .negativeRepeat)
  else if maxTextBytes < s.utf8ByteSize * count.toNat then .error (.tooLong count)
  else .ok (.str (String.join (List.replicate count.toNat s)))

/-- `/`, always on floats. -/
def quotient (a b : Value) : Except Upset Value :=
  match a.number?, b.number? with
  | some x, some y => if y == 0 then .error (.complaint .divisionByZero) else .ok (.float (x / y))
  | _, _ => .error (.complaint (.unsupported "/" a.kind b.kind))

/-- `%`, on integers only, with the sign of the dividend. -/
def remainder : Value → Value → Except Upset Value
  | .int x, .int y => if y = 0 then .error (.complaint .moduloByZero) else .ok (.int (x.tmod y))
  | a, b => .error (.complaint (.unsupported "%" a.kind b.kind))

/-- `^`, always on floats. -/
def raise (a b : Value) : Except Upset Value :=
  match a.number?, b.number? with
  | some x, some y => .ok (.float (x.pow y))
  | _, _ => .error (.complaint (.unsupported "^" a.kind b.kind))

/-- The unary `-`. -/
def opposite : Value → Except Upset Value
  | .int n =>
    if minInt ≤ -n ∧ -n ≤ maxInt then .ok (.int (-n)) else .error (.complaint .negationOverflow)
  | .float x => .ok (.float (-x))
  | v => .error (.complaint (.notNegatable v.kind))

namespace Operator

/-- The left operand alone decides. -/
def settledBy : Operator → Value → Bool
  | or, v => v.counts
  | and, v => !v.counts
  | _, _ => false

/-- The value of an operator that both operands are needed for. -/
def apply : Operator → Value → Value → Except Upset Value
  | or, _, b | and, _, b => .ok b
  | eq, a, b => .ok (.bool (a.equals b))
  | neq, a, b => .ok (.bool (!a.equals b))
  | is, a, b => .ok (.bool (a.identical b))
  | isNot, a, b => .ok (.bool (!a.identical b))
  | lt, a, b => ordered "<" (fun x y => x < y) (fun x y => x < y) a b
  | gt, a, b => ordered ">" (fun x y => y < x) (fun x y => y < x) a b
  | lte, a, b => ordered "<=" (fun x y => x ≤ y) (fun x y => x ≤ y) a b
  | gte, a, b => ordered ">=" (fun x y => y ≤ x) (fun x y => y ≤ x) a b
  | plus, .str s, b => .ok (.str (s ++ b.written))
  | plus, a, .str s => .ok (.str (a.written ++ s))
  | plus, a, b => arithmetic "+" (· + ·) (· + ·) a b
  | minus, a, b => arithmetic "-" (· - ·) (· - ·) a b
  | star, .str s, .int count | star, .int count, .str s => copies s count
  | star, a, b => arithmetic "*" (· * ·) (· * ·) a b
  | slash, a, b => quotient a b
  | percent, a, b => remainder a b
  | caret, a, b => raise a b

end Operator

namespace Expr

/-- The value of an expression printed at `p`, where `ρ` gives the values of names: operands from
left to right, the condition of a conditional first. -/
def eval (ρ : String → Option Value) : Expr → Position → Except Interrupt Value
  | literal l, _ => .ok l.value
  | name x, p =>
    match ρ x.text with
    | some v => .ok v
    | none => .error (Upset.at p (.complaint (.undefinedVariable x.text)))
  | paren e, p => e.eval ρ (inside true p)
  | not e, p => do
    let v ← e.eval ρ (inside (e.level < 9) (p.past [.not]))
    return .bool !v.counts
  | negative e, p => do
    let v ← e.eval ρ (inside (e.level < 9) (p.past [.minus]))
    (opposite v).mapError (Upset.at p)
  | binary op a b, p => do
    let v ← a.eval ρ (inside (a.level < op.left) p)
    if op.settledBy v then return v
    let q := p.past (enclosed (a.level < op.left) a.words)
    let w ← b.eval ρ (inside (op.encloses b.level b.words) (q.past op.words))
    (op.apply v w).mapError (Upset.at q)
  | conditional a c b, p => do
    let q := (p.past (enclosed (a.level < 2) a.words)).past [.if]
    let v ← c.eval ρ (inside (c.level < 2) q)
    if v.counts then a.eval ρ (inside (a.level < 2) p)
    else b.eval ρ ((q.past (enclosed (c.level < 2) c.words)).past [.else])

end Expr

/-! ### What the words of an expression look like -/

/-- The level at which a token of this kind continues the expression before it, 0 if it does not. -/
def TokenKind.joins : TokenKind → Nat
  | kwIf => 1
  | kwOr => 2
  | kwAnd => 3
  | eq | neq => 4
  | kwIs => 5
  | lt | gt | lte | gte => 6
  | plus | minus => 7
  | star | slash | percent => 8
  | caret => 10
  | dot | lbracket | lparen => 11
  | _ => 0

/-- The kinds an expression may begin with: an operand, and a sign where one may stand. -/
def TokenKind.begins (signed : Bool) : TokenKind → Bool
  | int | float | str | kwTrue | kwFalse | kwNull | ident | lparen => true
  | kwNot | minus => signed
  | _ => false

/-- The first word is one that an expression may begin with. -/
def Begins (signed : Bool) (ws : List Word) : Prop :=
  ∃ w vs, ws = w :: vs ∧ w.kind.begins signed = true

theorem Begins.append {signed : Bool} {us : List Word} (h : Begins signed us) (ws : List Word) :
    Begins signed (us ++ ws) := by
  obtain ⟨w, vs, rfl, hw⟩ := h
  exact ⟨w, vs ++ ws, rfl, hw⟩

theorem begins_enclosed {signed b : Bool} {ws : List Word} (h : b = false → Begins signed ws) :
    Begins signed (enclosed b ws) := by
  cases b with
  | false => exact h rfl
  | true => exact ⟨.lparen, ws ++ [.rparen], rfl, rfl⟩

theorem Begins.signed {ws : List Word} {b : Bool} (h : Begins b ws) : Begins true ws := by
  obtain ⟨w, vs, rfl, hw⟩ := h
  refine ⟨w, vs, rfl, ?_⟩
  cases b with
  | true => exact hw
  | false =>
    unfold TokenKind.begins at hw ⊢
    split at hw <;> first | rfl | contradiction

theorem Operator.level_bounds (op : Operator) : 2 ≤ op.level ∧ op.level ≤ 10 := by
  cases op <;> decide

namespace Expr

theorem begins_literal (l : Literal) : l.word.kind.begins false = true := by
  cases l with
  | bool b => cases b <;> rfl
  | _ => rfl

theorem level_bounds (e : Expr) : 1 ≤ e.level ∧ e.level ≤ 11 := by
  cases e with
  | binary op a b => exact ⟨by have := op.level_bounds; simp only [level]; omega,
      by have := op.level_bounds; simp only [level]; omega⟩
  | _ => exact ⟨by simp [level], by simp [level]⟩

/-- An expression begins with an operand or a sign, one at least as tight as a power with no sign. -/
theorem begins_words (e : Expr) : Begins (e.level < 10) e.words := by
  induction e with
  | literal l => exact ⟨_, [], rfl, begins_literal l⟩
  | name x => exact ⟨_, [], rfl, rfl⟩
  | paren e => exact ⟨_, _, rfl, rfl⟩
  | not e => exact ⟨_, _, rfl, rfl⟩
  | negative e => exact ⟨_, _, rfl, rfl⟩
  | conditional a c b iha => exact (begins_enclosed fun _ => iha.signed).append _
  | binary op a b iha =>
    refine (begins_enclosed fun hb => ?_).append _
    by_cases hc : op = .caret
    · subst hc
      have : (decide (a.level < 10)) = false := by
        rw [decide_eq_false_iff_not] at hb ⊢
        exact fun h => hb (Nat.lt_trans h (by decide))
      rwa [this] at iha
    · have : decide ((binary op a b).level < 10) = true := by
        cases op <;> first | rfl | contradiction
      rw [this]
      exact iha.signed

theorem words_ne_nil (e : Expr) : e.words ≠ [] := by
  obtain ⟨w, vs, h, -⟩ := e.begins_words
  simp [h]

end Expr

/-! ### Looking for an `if` -/

/-- The number of open brackets behind a token of this kind, `depth` of them being open before it;
nothing where a reader that looks for an `if` stops. -/
def TokenKind.passed (depth : Nat) (k : TokenKind) : Option Nat :=
  if k = .eof ∨ depth = 0 ∧ (k.closes ∨ k = .kwIf ∨ Cursor.endsExpression k) then none
  else some (if k.opens then depth + 1 else if k.closes then depth - 1 else depth)

/-- The same behind several words. -/
def walk : Nat → List Word → Option Nat
  | depth, [] => some depth
  | depth, w :: ws => (w.kind.passed depth).bind (walk · ws)

theorem walk_append (depth : Nat) (us ws : List Word) :
    walk depth (us ++ ws) = (walk depth us).bind (walk · ws) := by
  induction us generalizing depth with
  | nil => rfl
  | cons u us ih =>
    rw [List.cons_append, walk, walk]
    cases u.kind.passed depth with
    | none => rfl
    | some depth => exact ih depth

/-- Words that a reader inside `depth` brackets passes over and is inside as many again. -/
def Balanced (depth : Nat) (ws : List Word) : Prop := walk depth ws = some depth

theorem Balanced.append {depth : Nat} {us ws : List Word} (hu : Balanced depth us)
    (hw : Balanced depth ws) : Balanced depth (us ++ ws) := by
  rw [Balanced, walk_append, hu]
  exact hw

theorem Balanced.cons {depth : Nat} {w : Word} {ws : List Word}
    (h : w.kind.passed depth = some depth) (hw : Balanced depth ws) : Balanced depth (w :: ws) := by
  rw [Balanced, walk, h]
  exact hw

theorem balanced_enclosed {depth : Nat} {b : Bool} {ws : List Word} (h : Balanced (depth + 1) ws)
    (hb : b = false → Balanced depth ws) : Balanced depth (enclosed b ws) := by
  cases b with
  | false => exact hb rfl
  | true =>
    have hopen : walk depth [.lparen] = some (depth + 1) := by
      simp [walk, Word.lparen, Word.kind, TokenKind.passed, TokenKind.closes, TokenKind.opens,
        Cursor.endsExpression]
    have hclose : walk (depth + 1) [.rparen] = some depth := by
      simp [walk, Word.rparen, Word.kind, TokenKind.passed, TokenKind.closes, TokenKind.opens]
    show walk depth ([.lparen] ++ (ws ++ [.rparen])) = some depth
    rw [walk_append, hopen, Option.bind_some, walk_append, h]
    exact hclose

/-- Of these kinds a reader that looks for an `if` takes no notice. -/
def TokenKind.plain (k : TokenKind) : Bool :=
  k != .eof && !k.closes && !k.opens && k != .kwIf && !Cursor.endsExpression k

theorem passed_of_plain {k : TokenKind} (h : k.plain = true) (depth : Nat) :
    k.passed depth = some depth := by
  simp only [TokenKind.plain, Bool.and_eq_true, bne_iff_ne, ne_eq, Bool.not_eq_true'] at h
  simp [TokenKind.passed, h]

/-- Inside of brackets it takes no notice of anything but brackets. -/
theorem passed_inside {k : TokenKind} (h : (k != .eof && !k.closes && !k.opens) = true)
    (depth : Nat) : k.passed (depth + 1) = some (depth + 1) := by
  simp only [Bool.and_eq_true, bne_iff_ne, ne_eq, Bool.not_eq_true'] at h
  simp [TokenKind.passed, h]

theorem balanced_operator (op : Operator) (depth : Nat) : Balanced depth op.words := by
  have hp : op.words.all (fun w => w.kind.plain) = true := by cases op <;> rfl
  generalize op.words = ws at hp
  induction ws with
  | nil => rfl
  | cons w ws ih =>
    rw [List.all_cons, Bool.and_eq_true] at hp
    exact .cons (passed_of_plain hp.1 depth) (ih hp.2)

theorem plain_literal (l : Literal) : l.word.kind.plain = true := by
  cases l with
  | bool b => cases b <;> rfl
  | _ => rfl

/-- Inside brackets a reader that looks for an `if` passes over every expression, elsewhere over all
but conditionals. -/
theorem Expr.balanced_words (e : Expr) :
    (∀ depth, Balanced (depth + 1) e.words) ∧ (2 ≤ e.level → Balanced 0 e.words) := by
  -- a part of a tree is passed over at any depth, since it has parentheses where it is conditional
  have part {e : Expr} (he : (∀ depth, Balanced (depth + 1) e.words) ∧
      (2 ≤ e.level → Balanced 0 e.words)) {b : Bool} (hb : b = false → 2 ≤ e.level) (depth : Nat) :
      Balanced depth (enclosed b e.words) :=
    balanced_enclosed (he.1 depth) fun h => match depth with
      | 0 => he.2 (hb h)
      | depth + 1 => he.1 depth
  have both {ws : List Word} {n : Nat} (h : ∀ depth, Balanced depth ws) :
      (∀ depth, Balanced (depth + 1) ws) ∧ (2 ≤ n → Balanced 0 ws) :=
    ⟨fun depth => h (depth + 1), fun _ => h 0⟩
  have tight {ℓ n : Nat} (hℓ : 2 ≤ ℓ) (h : decide (n < ℓ) = false) : 2 ≤ n := by
    rw [decide_eq_false_iff_not, Nat.not_lt] at h
    exact Nat.le_trans hℓ h
  induction e with
  | literal l => exact both fun depth => .cons (passed_of_plain (plain_literal l) depth) rfl
  | name x => exact both fun depth => .cons (passed_of_plain rfl depth) rfl
  | paren e ih => exact both (part ih (fun h => nomatch h))
  | not e ih =>
    exact both fun depth => .cons (passed_of_plain rfl depth) (part ih (tight (by decide)) depth)
  | negative e ih =>
    exact both fun depth => .cons (passed_of_plain rfl depth) (part ih (tight (by decide)) depth)
  | binary op a b iha ihb =>
    have hleft : 2 ≤ op.left := by cases op <;> decide
    have hright : 2 ≤ op.right := by cases op <;> decide
    refine both fun depth => (part iha (tight hleft) depth).append
      ((balanced_operator op depth).append (part ihb (fun h => tight hright ?_) depth))
    exact (Bool.or_eq_false_iff.1 h).1
  | conditional a c b iha ihc ihb =>
    refine ⟨fun depth => (part iha (tight (by decide)) _).append
      (.cons (passed_inside rfl depth) ((part ihc (tight (by decide)) _).append
        (.cons (passed_inside rfl depth) (ihb.1 depth)))), fun h => absurd h (by decide : ¬ 2 ≤ 1)⟩

/-! ### Scalars -/

namespace Expr

theorem scalar_arithmetic {op : String} {f : Int → Int → Int} {g : Float → Float → Float}
    {a b v : Value} (h : arithmetic op f g a b = .ok v) : v.scalar = true := by
  unfold arithmetic at h
  split at h
  · split at h
    · exact Except.ok.inj h ▸ rfl
    · contradiction
  · split at h
    · exact Except.ok.inj h ▸ rfl
    · contradiction

theorem scalar_ordered {op : String} {f : Int → Int → Bool} {g : Float → Float → Bool}
    {a b v : Value} (h : ordered op f g a b = .ok v) : v.scalar = true := by
  unfold ordered at h
  split at h
  · exact Except.ok.inj h ▸ rfl
  · split at h
    · exact Except.ok.inj h ▸ rfl
    · contradiction

theorem scalar_opposite {a v : Value} (h : opposite a = .ok v) : v.scalar = true := by
  unfold opposite at h
  repeat' split at h
  all_goals first
    | contradiction
    | exact Except.ok.inj h ▸ rfl

theorem scalar_apply (op : Operator) {a b v : Value} (hb : b.scalar = true)
    (h : op.apply a b = .ok v) : v.scalar = true := by
  unfold Operator.apply copies quotient remainder raise at h
  repeat' split at h
  all_goals first
    | contradiction
    | exact scalar_arithmetic h
    | exact scalar_ordered h
    | exact Except.ok.inj h ▸ rfl
    | exact Except.ok.inj h ▸ hb

end Expr

end Rewind
