/-
Holes in string literals.

A string literal with holes stands for the text between the holes and, in the place of each of them,
the text of the value of the code in it: the value this code has in parentheses, wherever that
stands.  Each hole is a text of its own, though, on which a cursor of its own moves, and the one on the
literal comes back.  So the code must begin in a column that the rule of indentation allows.  And the
reader that looks for the end of a hole counts every brace in it, those inside of strings as well.

* `Template.Braced`, `Template.findClose_iff` — the braces of a code match, with no regard to strings,
  which is when the code is found where it was written;
* `Hole`, `Hole.ofChars_written` — holes, and the template of a text that is made of them;
* `Hole.Stands`, `Hole.value`, `Hole.spelled` — the code of a hole in parentheses, its value there, and
  what the holes of a literal are to be filled with;
* `Hole.embedded_of_value`, `Hole.embedded_of_not_allowed` — the value of a code in a hole;
* `holes_in_place` — the text of a literal with holes.
-/
import Rewind.Proofs.Margin
import Rewind.Proofs.Resumption
import Rewind.Proofs.Tracking

namespace Rewind

open Eval

/-! ### Finding holes -/

namespace Template

/-- Inside `depth` open braces, the braces of the code match. -/
def Braced : Nat → List Char → Prop
  | depth, [] => depth = 0
  | depth, c :: cs =>
    if c = '\x7b' then Braced (depth + 1) cs
    else if c = '\x7d' then depth ≠ 0 ∧ Braced (depth - 1) cs
    else Braced depth cs

instance Braced.decidable : (depth : Nat) → (cs : List Char) → Decidable (Braced depth cs)
  | depth, [] => inferInstanceAs (Decidable (depth = 0))
  | depth, c :: cs =>
    have := Braced.decidable (depth + 1) cs
    have := Braced.decidable (depth - 1) cs
    have := Braced.decidable depth cs
    inferInstanceAs (Decidable (if c = '\x7b' then Braced (depth + 1) cs
      else if c = '\x7d' then depth ≠ 0 ∧ Braced (depth - 1) cs else Braced depth cs))

/-- A code whose braces match ends at the closing brace behind it. -/
theorem findClose_of_braced {depth : Nat} {code : List Char} (h : Braced depth code)
    (rest : List Char) : findClose depth (code ++ '\x7d' :: rest) = some (code, rest) := by
  induction code generalizing depth with
  | nil =>
    obtain rfl : depth = 0 := h
    simp [findClose]
  | cons c cs ih =>
    have inner : ¬(c = '\x7d' ∧ depth = 0) := by
      rintro ⟨rfl, rfl⟩
      simp [Braced] at h
    rw [List.cons_append, findClose, if_neg inner]
    simp only [Braced] at h
    split at h
    · simp [*, ih h]
    split at h
    · simp [*, ih h.2]
    · simp [*, ih h]

theorem findHole_cons {c : Char} {cs : List Char} (h : ∀ ds, c :: cs ≠ '%' :: '\x7b' :: ds) :
    findHole (c :: cs) = (findHole cs).map fun (before, behind) => (c :: before, behind) := by
  rw [findHole]
  rintro ds rfl rfl
  exact h ds rfl

/-- A text without a hole ends at the hole behind it. -/
theorem findHole_append {before : List Char} (h : findHole before = none) (rest : List Char) :
    findHole (before ++ '%' :: '\x7b' :: rest) = some (before, rest) := by
  induction before with
  | nil => rfl
  | cons c cs ih =>
    have apart : ∀ ds, c :: cs ≠ '%' :: '\x7b' :: ds := by
      rintro ds heq
      rw [heq] at h
      cases h
    have behind : findHole cs = none := by
      rw [findHole_cons apart] at h
      exact Option.map_eq_none_iff.1 h
    rw [List.cons_append, findHole_cons, ih behind]
    · rfl
    intro ds heq
    cases cs with
    | nil => exact absurd (List.cons.inj (List.cons.inj heq).2).1 (by decide)
    | cons d ds' =>
      obtain ⟨rfl, htail⟩ := List.cons.inj heq
      obtain ⟨rfl, -⟩ := List.cons.inj htail
      exact apart ds' rfl

/-- The reader finds the end of a hole where it was written if, and only if, the braces match. -/
theorem findClose_iff {depth : Nat} {code rest : List Char} :
    findClose depth (code ++ '\x7d' :: rest) = some (code, rest) ↔ Braced depth code := by
  refine ⟨fun h => ?_, fun h => findClose_of_braced h rest⟩
  induction code generalizing depth with
  | nil =>
    by_contra deep
    rw [List.nil_append, findClose, if_neg fun h => deep h.2] at h
    obtain ⟨_, -, h⟩ := Option.map_eq_some_iff.1 h
    exact nomatch h
  | cons c cs ih =>
    rw [List.cons_append, findClose] at h
    split at h
    · exact nomatch h
    rename_i inner
    -- what is found behind the first character begins with it
    obtain ⟨⟨found, behind⟩, h, heq⟩ := Option.map_eq_some_iff.1 h
    obtain ⟨⟨-, rfl⟩, rfl⟩ : (c = c ∧ found = cs) ∧ behind = rest := by simpa using heq
    have rest := ih h
    unfold Braced
    split
    · rename_i opens
      rwa [if_pos opens] at rest
    rename_i opens
    rw [if_neg opens] at rest
    split
    · rename_i closes
      rw [if_pos closes] at rest
      exact ⟨fun hd => inner ⟨closes, hd⟩, rest⟩
    · rename_i closes
      rwa [if_neg closes] at rest

end Template

/-- A hole: the text before it and the code in it.  The same code stands in parentheses in the source
`source`, which has `post` behind them; the opening one is at `start`. -/
structure Hole where
  before : List Char
  code : List Char
  source : Source
  start : Position
  post : List Char

namespace Hole

/-- The text of a literal: before each hole what stands there, and at the end `last`. -/
def written (holes : List Hole) (last : List Char) : List Char :=
  holes.foldr (fun h rest => h.before ++ '%' :: '\x7b' :: (h.code ++ '\x7d' :: rest)) last

/-- The same text as a template. -/
def template (holes : List Hole) (last : List Char) : Template :=
  holes.foldr (fun h rest => .hole h.before h.code rest) (.plain last)

/-- The reader finds the holes that were written. -/
structure Found (holes : List Hole) (last : List Char) : Prop where
  last : Template.findHole last = none
  before : ∀ h ∈ holes, Template.findHole h.before = none
  braced : ∀ h ∈ holes, Template.Braced 0 h.code

theorem ofChars_written {holes : List Hole} {last : List Char} (h : Found holes last) :
    Template.ofChars (written holes last) = template holes last := by
  induction holes with
  | nil => exact ofChars_of_findHole h.last
  | cons hole holes ih =>
    -- the holes that are left are found as they are written
    have rest : Found holes last :=
      ⟨h.last, fun g hg => h.before g (.tail _ hg), fun g hg => h.braced g (.tail _ hg)⟩
    have found := Template.findHole_append (h.before hole (.head _))
      (hole.code ++ '\x7d' :: written holes last)
    have closed := Template.findClose_of_braced (h.braced hole (.head _)) (written holes last)
    show Template.ofChars
        (hole.before ++ '%' :: '\x7b' :: (hole.code ++ '\x7d' :: written holes last)) =
      .hole hole.before hole.code (template holes last)
    rw [Template.ofChars, ← ih rest]
    split
    · rename_i none
      rw [found] at none
      cases none
    rename_i some
    rw [found] at some
    obtain ⟨rfl, rfl⟩ := Prod.mk.inj (Option.some.inj some)
    split
    · rename_i none
      rw [closed] at none
      cases none
    rename_i some
    rw [closed] at some
    obtain ⟨rfl, rfl⟩ := Prod.mk.inj (Option.some.inj some)
    rfl

/-! ### In place -/

/-- The code of the hole is one expression: it consists of whole tokens, one at least, with matching
brackets and no comma outside of them, and it stands in parentheses on one line. -/
structure Stands (h : Hole) : Prop where
  reads : h.source.Reads h.start ('(' :: (h.code ++ ')' :: h.post))
  oneLine : '\n' ∉ h.code
  enclosed : Enclosed h.post 0 (h.start.step '(') h.code
  begun : ∀ t cs, scan (h.start.step '(') (h.code ++ ')' :: h.post) = .ok (t, cs) → t.kind ≠ .rparen

/-- The cursor on the opening parenthesis. -/
def place (h : Hole) : Cursor :=
  ⟨h.source, ⟨.lparen, "(", h.start, h.start.step '('⟩, h.code ++ ')' :: h.post, 0⟩

/-- The value the code has where it stands in parentheses.  It counts as one more text that is read,
and the cursor comes back. -/
def value (j : Jobs) (n : Nat) (h : Hole) : Eval Value := do
  let outer := (← get).thread.cursor
  modify fun m => { m with sources := m.sources + 1 }
  setCursor h.place
  embedded.restoring outer do own (← primary j n)

/-- What a literal with these holes and `last` behind them stands for: in the place of each hole the text
of the value of its code, the first hole first. -/
def spelled (j : Jobs) (n : Nat) (site : Token) (last : List Char) : List Hole → Eval String
  | [] => return String.ofList last
  | h :: holes => do
    let v ← h.value j n
    let text ← render j v site
    let rest ← spelled j n site last holes
    return String.ofList h.before ++ text ++ rest

theorem scan_lparen (p : Position) (cs : List Char) :
    scan p ('(' :: cs) = .ok (⟨.lparen, "(", p, p.step '('⟩, cs) := by
  have alone : cs.head?.bind (symbolPair? '(') = none := by
    cases cs with
    | nil => rfl
    | cons c cs => rfl
  have read : lexeme p '(' cs = .ok ⟨.lparen, "(", p.step '(', cs⟩ := by
    rw [lexeme_of_marks (by decide), symbol, alone]
    rfl
  have stays : skipGap .blank p ('(' :: cs) = .ok (p, '(' :: cs) :=
    skipGap_stays (by decide) (by decide) (by simp)
  simp only [scan, bind, Except.bind, stays, read]
  rfl

/-! ### In a hole -/

section Code

variable {fuel n : Nat} {h : Hole}

/-- The code begins side by side, in parentheses and in a hole. -/
theorem Stands.abreast (hs : h.Stands) (margin : Allowed h.code) (id : Nat) :
    ∃ c c', h.place.bump = .ok c ∧ Cursor.ofSource ⟨id, h.code⟩ = .ok c' ∧ c.kind ≠ .rparen ∧
      Abreast ⟨h.source, ⟨id, h.code⟩, h.post⟩ 0 c c' := by
  have column : 1 < (h.start.step '(').column := by
    rw [Position.step_of_ne (by decide)]
    exact Nat.succ_lt_succ hs.reads.column_pos
  have begins : MayBegin (Position.origin id) h.code := ⟨Nat.one_pos, (allowed_iff rfl).2 margin⟩
  obtain ⟨t, cs, t', cs', ht, ht', -, -, beside⟩ :=
    beside_of_enclosed hs.enclosed hs.oneLine column begins
  have sound : h.place.Sound := Source.holds_of_scan hs.reads (scan_lparen _ _)
  have moved : h.place.bump = .ok ⟨h.source, t, cs, h.place.current.stop.line⟩ := by
    rw [Cursor.bump, place, ht]
  have opened : Cursor.ofSource ⟨id, h.code⟩ = .ok ⟨⟨id, h.code⟩, t', cs', 0⟩ := by
    rw [Cursor.ofSource, show scan (Source.origin ⟨id, h.code⟩) h.code = _ from ht']
    rfl
  exact ⟨_, _, moved, opened, hs.begun t cs ht, rfl, rfl, (Cursor.sound_bump sound moved).1,
    (Cursor.sound_ofSource opened).1, beside⟩

/-- What has been read in parentheses, without a comma in them, is an expression and the closing one. -/
theorem ok_of_primary {j : Jobs} {m m₁ : Machine} {c : Cursor} {held : Held}
    (hk : m.thread.cursor.kind = .lparen) (hc : m.thread.cursor.bump = .ok c) (hr : c.kind ≠ .rparen)
    (single : ∀ {first m₂}, j.expression (m.moved c) = .ok first m₂ → m₂.thread.cursor.kind ≠ .comma)
    (run : primary j n m = .ok held m₁) :
    ∃ m₂ d, j.expression (m.moved c) = .ok held m₂ ∧ m₂.thread.cursor.kind = .rparen ∧
      m₁ = m₂.moved d := by
  have bumped : (liftM bump : Eval Token) m = .ok m.thread.cursor.current (m.moved c) := by
    rw [Quiet.run_lift, bump_run hc]
  rw [primary, bind_of_ok bumped, show m.thread.cursor.current.kind = .lparen from hk] at run
  -- something stands between the parentheses
  have skipped : skipOver .rparen (m.moved c) = .ok false (m.moved c) := by
    show (if c.kind = .rparen then _ else _ : Run Bool) _ = _
    rw [if_neg hr]
    rfl
  have filled : (liftM (skipOver .rparen) : Eval Bool) (m.moved c) = .ok false (m.moved c) := by
    rw [Quiet.run_lift, skipped]
  change parenthesized j n (m.moved c) = _ at run
  rw [parenthesized, bind_of_ok filled] at run
  obtain ⟨first, m₂, read, run⟩ := ok_of_bind run
  change (if m₂.thread.cursor.kind ≠ .comma then _ else _ : Eval Held) m₂ = _ at run
  rw [if_pos (single read)] at run
  obtain ⟨paren, m₃, closed, run⟩ := ok_of_bind run
  rw [Quiet.run_lift] at closed
  split at closed
  · rename_i advanced
    obtain ⟨d, here, -, -, rfl⟩ := ok_of_advance advanced
    obtain ⟨rfl, rfl⟩ := EStateM.Result.ok.inj closed
    obtain ⟨rfl, rfl⟩ := EStateM.Result.ok.inj run
    exact ⟨m₂, d, read, here, rfl⟩
  · contradiction

/-- The value of a code in a hole is the one it has in parentheses. -/
theorem embedded_of_value (hs : h.Stands) (margin : Allowed h.code) {m m₁ : Machine} {v : Value}
    (run : h.value (jobs fuel) n m = .ok v m₁) (site : Token) :
    m₁.thread.cursor = m.thread.cursor ∧ embedded (jobs fuel) h.code site m = .ok v m₁ := by
  obtain ⟨c, c', moved, opened, filled, beside⟩ := hs.abreast margin m.sources
  have along {first : Held} {m₂ : Machine}
      (read : (jobs fuel).expression ((m.inHole h.place).moved c) = .ok first m₂) :=
    (along_jobs ⟨h.source, ⟨m.sources, h.code⟩, h.post⟩ fuel).expression 0 _ c' first m₂ beside read
  -- in place
  change embedded.restoring m.thread.cursor (do own (← primary (jobs fuel) n)) (m.inHole h.place) = _ at run
  unfold embedded.restoring at run
  split at run
  · rename_i v' m₂ owned
    obtain ⟨rfl, rfl⟩ := EStateM.Result.ok.inj run
    obtain ⟨held, m₃, read, owned⟩ := ok_of_bind owned
    have single {first : Held} {m₂ : Machine}
        (read : (jobs fuel).expression ((m.inHole h.place).moved c) = .ok first m₂) :
        m₂.thread.cursor.kind ≠ .comma := by
      obtain ⟨_, _, -, -, beside'⟩ := along read
      exact beside'.beside.not_comma
    obtain ⟨m₄, d, body, closed, rfl⟩ := ok_of_primary rfl moved filled single read
    -- and in the hole
    obtain ⟨_, c₁, read', same, beside'⟩ := along body
    rw [same] at read'
    obtain ⟨-, owned'⟩ := placeless_own held _ m.thread.cursor _ _ owned
    refine ⟨rfl, ?_⟩
    rw [embedded_run opened]
    have restored : (embedded.restoring m.thread.cursor (do
        let held ← (jobs fuel).expression
        return (held, ← kind)) : Eval (Held × TokenKind)) (m.inHole c') =
        .ok (held, .eof) (m₄.moved m.thread.cursor) := by
      unfold embedded.restoring
      rw [bind_of_ok (show (jobs fuel).expression (m.inHole c') = _ from read')]
      show EStateM.Result.ok (_, c₁.kind) _ = _
      rw [show c₁.kind = .eof from beside'.beside.eof closed]
      rfl
    rw [bind_of_ok restored, closeHole, if_neg (by simp)]
    exact owned'
  · contradiction

/-- A code that the rule of indentation does not let begin has no value in a hole. -/
theorem embedded_of_not_allowed {j : Jobs} {code : List Char} {site : Token} (margin : ¬Allowed code)
    (m : Machine) : ∃ cause, embedded j code site m =
      .error (.fault (.failure (.malformed (.inInterpolation cause) site.line site.column)))
        { m with sources := m.sources + 1 } := by
  cases code with
  | nil => exact absurd rfl margin
  | cons c cs =>
    cases check : checkIndentation (Position.origin m.sources) (c :: cs) with
    | ok u => exact absurd ((allowed_iff rfl).1 check) margin
    | error fault =>
      have closed : Cursor.ofSource ⟨m.sources, c :: cs⟩ = .error fault := by
        have gap : skipGap .blank (Position.origin m.sources) (c :: cs) = .error fault := by
          unfold skipGap
          rw [check]
        simp only [Cursor.ofSource, scan, bind, Except.bind, Source.origin, gap]
        rfl
      refine ⟨fault.cause, ?_⟩
      rw [embedded, bind_of_ok (get_run m), bind_of_ok (modify_run _ m), closed]
      rfl

/-- What holes are filled with is put behind what stands before them. -/
theorem fill_of_spelled {holes : List Hole} {last : List Char} {site : Token}
    (stands : ∀ h ∈ holes, h.Stands) (margin : ∀ h ∈ holes, Allowed h.code) {m m₁ : Machine}
    {text : String} (run : spelled (jobs fuel) n site last holes m = .ok text m₁) (before : String) :
    m₁.thread.cursor = m.thread.cursor ∧
      fill (jobs fuel) site before (template holes last) m = .ok (before ++ text) m₁ := by
  induction holes generalizing m text before with
  | nil =>
    obtain ⟨rfl, rfl⟩ := EStateM.Result.ok.inj run
    exact ⟨rfl, rfl⟩
  | cons h holes ih =>
    obtain ⟨v, m₂, value, run⟩ := ok_of_bind run
    obtain ⟨written, m₃, rendered, run⟩ := ok_of_bind run
    obtain ⟨rest, m₄, spelled, run⟩ := ok_of_bind run
    obtain ⟨rfl, rfl⟩ := EStateM.Result.ok.inj run
    obtain ⟨stays, embedded⟩ := embedded_of_value (stands h (.head _)) (margin h (.head _)) value site
    obtain ⟨stays', -⟩ := placeless_render (placeless_jobs fuel) v site site _ m₂.thread.cursor _ _ rendered
    obtain ⟨stays'', filled⟩ := ih (fun g hg => stands g (.tail _ hg))
      (fun g hg => margin g (.tail _ hg)) spelled (before ++ String.ofList h.before ++ written)
    refine ⟨stays''.trans (stays'.trans stays), ?_⟩
    show fill (jobs fuel) site before (.hole h.before h.code (template holes last)) m = _
    rw [fill, bind_of_ok embedded, bind_of_ok rendered, filled]
    simp only [String.append_assoc]

end Code

end Hole

/-- A literal with holes, each of which is found where it was written, stands for its text with the
holes filled from left to right: each with the text of the value that its code has where it stands in
parentheses, if the rule of indentation lets this code begin.  The cursor stays where it is. -/
theorem holes_in_place {fuel n : Nat} {literal : Token} {holes : List Hole} {last : List Char}
    {m m₁ : Machine} {text : String}
    (written : literal.text = String.ofList (Hole.written holes last)) (found : Hole.Found holes last)
    (stands : ∀ h ∈ holes, h.Stands) (margin : ∀ h ∈ holes, Allowed h.code)
    (inPlace : Hole.spelled (jobs fuel) n literal last holes m = .ok text m₁) :
    interpolate (jobs fuel) literal m = .ok text m₁ ∧ m₁.thread.cursor = m.thread.cursor := by
  rw [interpolate, written, String.toList_ofList, Hole.ofChars_written found]
  obtain ⟨stays, filled⟩ := Hole.fill_of_spelled stands margin inPlace ""
  rw [String.empty_append] at filled
  exact ⟨filled, stays⟩

/-- A hole with this code, which stands in parentheses on its own. -/
def alone (before code : String) : Hole :=
  ⟨before.toList, code.toList, ⟨0, '(' :: (code.toList ++ [')'])⟩, Position.origin 0, []⟩

theorem stands_alone {before code : String} (oneLine : '\n' ∉ code.toList)
    (enclosed : encloses [] 100 0 ((Position.origin 0).step '(') code.toList = true)
    (begun : (scan ((Position.origin 0).step '(') (code.toList ++ [')'])).toOption.all
      (·.1.kind != .rparen) = true) : (alone before code).Stands where
  reads := Source.reads_origin _
  oneLine := oneLine
  enclosed := enclosed_of_encloses enclosed
  begun := by
    intro t cs ht
    change scan ((Position.origin 0).step '(') (code.toList ++ [')']) = _ at ht
    rw [ht] at begun
    exact bne_iff_ne.1 begun

/-- A dictionary, an item of it and a sum; and, behind four blanks, a call with a literal that has a hole
and a parenthesis in it. -/
def nested : List Hole :=
  [alone "a" "\x7b'k': [1, 2]\x7d['k'][1] + 1", alone "b" "    len('%\x7b1\x7d)')"]

/-- The text a computation has come to. -/
def textOf : EStateM.Result Interrupt Machine String → Option String
  | .ok text _ => some text
  | .error .. => none

theorem ok_of_textOf {r : EStateM.Result Interrupt Machine String} {text : String}
    (h : textOf r = some text) : ∃ m, r = .ok text m := by
  cases r with
  | ok t m =>
    obtain rfl := Option.some.inj h
    exact ⟨m, rfl⟩
  | error e m => exact nomatch h

theorem holes_of_nested :
    Hole.Found nested ['c'] ∧ (∀ h ∈ nested, h.Stands) ∧ (∀ h ∈ nested, Allowed h.code) ∧
      ∃ m, Hole.spelled (jobs 30) 30 ⟨.str, String.ofList (Hole.written nested ['c']), default, default⟩
          ['c'] nested (Machine.new {}) = .ok "a3b2c" m ∧
        interpolate (jobs 30) ⟨.str, String.ofList (Hole.written nested ['c']), default, default⟩
          (Machine.new {}) = .ok "a3b2c" m := by
  have found : Hole.Found nested ['c'] := ⟨by decide +kernel, by decide +kernel, by decide +kernel⟩
  have stands : ∀ h ∈ nested, h.Stands := by
    simp only [nested, List.forall_mem_cons]
    exact ⟨stands_alone (by decide +kernel) (by decide +kernel) (by decide +kernel),
      stands_alone (by decide +kernel) (by decide +kernel) (by decide +kernel), nofun⟩
  have margin : ∀ h ∈ nested, Allowed h.code := by
    unfold Allowed
    decide +kernel
  obtain ⟨m, run⟩ : ∃ m, Hole.spelled (jobs 30) 30
      ⟨.str, String.ofList (Hole.written nested ['c']), default, default⟩ ['c'] nested (Machine.new {}) =
        .ok "a3b2c" m := ok_of_textOf (by decide +kernel)
  exact ⟨found, stands, margin, m, run, (holes_in_place rfl found stands margin run).1⟩

/-- The brace in the nested string is taken for the end of the hole, and an expression behind a blank
for a line that is not indented as it should be. -/
theorem holes_misread :
    account ((Machine.new {}).runSource "show(\"%\x7b'\x7d'\x7d\")\n" 12) =
        ("", some "In string interpolation: Unterminated string literal") ∧
      account ((Machine.new {}).runSource "show(\"%\x7b 1\x7d\")\n" 12) =
        ("", some "In string interpolation: Invalid indentation: 1 spaces. Must be a multiple of 4") := by
  decide +kernel

end Rewind
