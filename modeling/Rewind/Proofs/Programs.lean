/-
Programs are run as their trees.

A program is read line by line: a function is passed over when it is defined, and its name stands for
the place where its body begins; a statement is run where it stands.  A session that runs the printed
program prints what the tree prints, ends as the tree ends, and then binds the same names.

* `parameters_settles` — the parameters of a function are read;
* `carries_definition` — a function is defined;
* `Program.simulated` — the items of a program, one after the other;
* `Program.scene` — what stays the same while a program runs;
* `run_of_tree` — a new session runs a printed program as its tree.
-/
import Rewind.Proofs.Calling

namespace Rewind.Tree

open Eval

variable {g : Scene} {S : Setting} {σ σ' : Store} {m m' : Machine} {b c d e : Cursor}
  {p q : Position} {k : Nat} {o : Except Halt (Option Signal)} {x : Identifier} {xs : List Identifier}

/-! ### Definitions -/

/-- A parameter without a default is read, behind others. -/
theorem parameter_run {w : Word} {ws : List Word} (function : String) {read : List Identifier}
    (hs : Before (.name x :: w :: ws) p m b) (hw : w.kind ≠ .assign)
    (hx : x.text ∉ read.map Identifier.text) :
    ∃ c, (∀ j, Eval.parameter j function (parameters read).reverse m =
      .ok ⟨x.text, none⟩ (m.moved c)) ∧ Before (w :: ws) (p.past [.name x]) (m.moved c) b := by
  obtain ⟨c, h₁, hs₁⟩ := hs.advance
  have unset := skipOver_of_ne (t := .assign) (m := m.moved c) (hs₁.kind.trans_ne hw)
  have fresh : (parameters read).reverse.any (·.name == x.text) = false := by
    rw [List.any_reverse, List.any_eq_false]
    intro y hy
    rw [beq_iff_eq]
    rintro hyx
    exact hx (names_parameters read ▸ List.mem_map.2 ⟨y, hy, hyx⟩)
  have plain : (parameters read).reverse.any (·.default.isSome) = false := by
    simp [parameters]
  refine ⟨c, fun j => (bind_of_ok (lift_of_ok h₁)).trans ?_, hs₁⟩
  show (if (parameters read).reverse.any (·.name == x.text) then _ else _ : Eval Param) (m.moved c) = _
  rw [fresh, if_neg (by simp)]
  refine (bind_of_ok (lift_of_ok unset)).trans ?_
  rw [if_neg (by simp), plain, if_neg (by simp)]
  rfl

/-- The parameters in front of a closing parenthesis are read, behind others that have been. -/
theorem parameters_settles (function : String) (read : List Identifier) {p : Position} {m : Machine}
    (distinct : ((read ++ xs).map Identifier.text).Nodup)
    (hs : Before (paramWords xs ++ [.rparen]) p m b) :
    ∃ d, (∀ m' : Machine, m'.thread.cursor = d → Before [.rparen] (p.past (paramWords xs)) m' b) ∧
      Settles (fun fuel n => Eval.parameters (jobs fuel) function n (parameters read).reverse) m
        (.ok (parameters (read ++ xs)) (m.moved d)) := by
  induction xs generalizing read p m with
  | nil =>
    refine ⟨m.thread.cursor, fun m' hm => hs.at_ hm, .round (y := fun _ _ => pure (parameters read))
      (.of_eq fun _ _ => by rw [List.append_nil]; rfl) fun fuel n => ?_⟩
    have kind : m.thread.cursor.kind = .rparen := hs.kind
    show (if m.thread.cursor.kind = .rparen then _ else _ : Eval (List Param)) m = _
    rw [if_pos kind, List.reverse_reverse]
    rfl
  | cons x xs ih =>
    -- a name is not given to two parameters
    have new : x.text ∉ read.map Identifier.text := by
      rw [List.map_append, List.nodup_append'] at distinct
      exact fun hx => List.disjoint_left.1 distinct.2.2 hx (by simp)
    have longer : ⟨x.text, none⟩ :: (parameters read).reverse = (parameters (read ++ [x])).reverse := by
      simp [parameters]
    have first {w : Word} {ws : List Word} (hs : Before (.name x :: w :: ws) p m b)
        (hw : w.kind ≠ .assign) : ∃ c, Before (w :: ws) (p.past [.name x]) (m.moved c) b ∧
          ∀ fuel n, Eval.parameters (jobs fuel) function (n + 1) (parameters read).reverse m = (do
            if ← skipOver .comma then
              Eval.parameters (jobs fuel) function n (parameters (read ++ [x])).reverse
            else return parameters (read ++ [x]) : Eval (List Param)) (m.moved c) := by
      obtain ⟨c, run, hs₁⟩ := parameter_run function hs hw new
      refine ⟨c, hs₁, fun fuel n => ?_⟩
      have kind : m.thread.cursor.kind ≠ .rparen := by
        rw [hs.kind]
        exact fun h => TokenKind.noConfusion h
      show (if m.thread.cursor.kind = .rparen then _ else _ : Eval (List Param)) m = _
      rw [if_neg kind]
      refine (bind_of_ok (run (jobs fuel))).trans ?_
      rw [longer, List.reverse_reverse]
    cases xs with
    | nil =>
      obtain ⟨c, hs₁, run⟩ := first hs (by decide)
      -- behind the last parameter stands the parenthesis and no comma
      have last := skipOver_of_ne (t := .comma) (m := m.moved c) (by rw [hs₁.kind]; decide)
      refine ⟨c, fun m' hm => hs₁.at_ hm, .round (y := fun _ _ => pure (parameters (read ++ [x])))
        (.of_eq fun _ _ => rfl) fun fuel n => (run fuel n).trans ?_⟩
      exact bind_of_ok (lift_of_ok last)
    | cons y ys =>
      obtain ⟨c, hs₁, run⟩ := first hs (by decide)
      obtain ⟨c', h₂, hs₂⟩ := hs₁.skipOver
      obtain ⟨d, hrest, settles⟩ := ih (read ++ [x]) (by simpa using distinct) hs₂
      refine ⟨d, fun m' hm => ?_, ?_⟩
      · have := hrest m' hm
        rwa [← Position.past_append, ← Position.past_append] at this
      · rw [List.append_assoc] at settles
        exact settles.round fun fuel n => (run fuel n).trans (bind_of_ok (lift_of_ok h₂))

theorem Definition.sealed_header (d : Definition) : Sealed d.header.words := by
  have name : Sealed [.funct, .colon, .name d.name] := sealed_of_all rfl
  exact name.append (sealed_paramWords d.params).paren

/-- A function as the machine has it. -/
def Definition.function (g : Scene) (d : Definition) (start : Position) : Function :=
  ⟨d.name.text, .script (d.script g start)⟩

/-- A body begins at the indentation of its first line. -/
theorem Lines.capture_eq {body : Block} (hl : Lines (body.rows k) p m e) :
    m.thread.cursor.capture = indented p k := by
  obtain ⟨w, ws, rows, hrows, -⟩ := body.rows_eq k
  rw [hrows] at hl
  rw [Cursor.capture, hl.onLine.current, Word.token]

/-- The body of a function is read where its header ends. -/
theorem Definition.embodies {d : Definition} {start : Position} (hl : Lines (d.body.rows 1) start m e)
    (he : Closes 1 e) (hs : m.thread.cursor.source = g.source) :
    Embodies g d start (d.function g start) := by
  refine ⟨rfl, rfl, hl.column, ?_⟩
  have holds : g.source.Holds m.thread.cursor.current m.thread.cursor.behind := hs ▸ hl.sound
  refine ⟨⟨g.source, m.thread.cursor.current, m.thread.cursor.behind, 0⟩, e, ?_, holds,
    hl.crosses.congr ?_ ⟨hs.symm, rfl, rfl⟩, he⟩
  · rw [← hl.capture_eq]
    exact Cursor.at?_eq holds
  · obtain ⟨w, ws, rows, hrows, -⟩ := d.body.rows_eq 1
    simp [hrows, spread, row]

/-- A function is defined, and its body passed over. -/
theorem carries_definition {d : Definition} (he : Borders 0 e)
    (hl : Lines (Item.function d).rows p m e) (live : Live S m) (hm : Mirrors g σ m)
    (hscope : m.thread.scope = g.root) (hsource : m.thread.cursor.source = g.source) :
    Carries g 0 stating m e (.ok none)
      (σ.define d.name.text (.function d (below p [d.header]))) := by
  obtain ⟨inner, opening⟩ := Lines.opening_last hl d.sealed_header he
  have header := opening.header
  obtain ⟨b, hparams, -, hcolon⟩ := header.split d.header.words
  obtain ⟨c₁, h₁, hs₁⟩ := hparams.advance
  obtain ⟨c₂, h₂, hs₂⟩ := hs₁.advance
  obtain ⟨c₃, h₃, hs₃⟩ := hs₂.advance
  obtain ⟨c₄, h₄, hs₄⟩ := hs₃.advance
  obtain ⟨c₅, hrparen, settles⟩ := parameters_settles d.name.text [] d.distinct hs₄
  obtain ⟨c₆, h₆, hs₆⟩ := (hrparen ((m.moved c₄).moved c₅) rfl).advance
  obtain rfl : c₆ = b := hs₆.moved_eq
  have entered := opening.enter (hcolon (m.moved c₆) rfl) (by simp)
  have passed := opening.skipBody (m.moved inner) rfl
  -- the body is in the text of the session, and the function in its outermost scope
  have body := opening.lines (m.moved inner) rfl
  have source : inner.source = g.source := by rw [header.source_eq, hsource]
  have text : (m.moved e).thread.cursor.source = g.source := body.source_eq.trans source
  have embodies := d.embodies (m := m.moved inner) body opening.closes source
  have entry : inner.capture = indented (below p [d.header]) 1 := body.capture_eq
  let f := d.function g (below p [d.header])
  let m₁ := enlarged (m.moved e) f
  have found : m₁.world.functions.get? m.world.functions.next = some f := Arena.get?_push_next _ _
  obtain ⟨m₂, defined, hm₂, hr₂⟩ := ((hm.moved e).enlarged f).define
    (b := .function d (below p [d.header])) (v := .function m.world.functions.next)
    ⟨f, found, embodies⟩ d.name.text
  have reaches : Reaches g m e m₂ :=
    (Reaches.refl g m e).trans ((reaches_enlarged g (m.moved e) f).trans hr₂)
  refine .normal m₂ ?_ hm₂ reaches
  let rest (params : List Param) : Supplied Interrupt Status := fun _ _ => do
    let _ ← advance .rparen
    enterBlock 1
    let entry ← capture
    skipBody 5
    let source := (← get).thread.cursor.source
    let body := { params, isAsync := false, source, entry, column := 1, scope := ← scope }
    define d.name.text (← newFunction ⟨d.name.text, .script body⟩)
    return .normal
  have behind : Settles (rest (parameters d.params)) ((m.moved c₄).moved c₅) (.ok .normal m₂) := by
    refine .of_eq fun fuel n => (bind_of_ok (lift_of_ok h₆)).trans
      ((bind_of_ok (lift_of_ok entered)).trans ?_)
    refine (bind_of_ok (lift_of_ok passed)).trans ?_
    have script : (⟨parameters d.params, false, e.source, inner.capture, 1, m.thread.scope⟩ : Script) =
        d.script g (below p [d.header]) := by
      rw [show e.source = g.source from text, entry, hscope]
      rfl
    have made : (newFunction ⟨d.name.text, .script
        ⟨parameters d.params, false, e.source, inner.capture, 1, m.thread.scope⟩⟩ : Eval Value)
          (m.moved e) = .ok (.function m.world.functions.next) m₁ := by
      rw [script]
      rfl
    refine (bind_of_ok (get_run _)).trans ((bind_of_ok rfl).trans ((bind_of_ok made).trans ?_))
    exact bind_of_ok defined
  have whole := settles.bind (k := rest) behind
  refine whole.congr fun fuel n => ?_
  have kind : m.thread.cursor.current.kind = .kwFunct := header.kind
  have column : m.thread.cursor.current.column = 1 := hl.onLine.column
  -- no `async` stands behind the keyword
  have sync := skipOver_of_ne (t := .kwAsync) (m := m) (by rw [header.kind]; decide)
  have run : statement (jobs fuel) n m = functStatement (jobs fuel) n m := by
    simp only [statement, Bind.bind, EStateM.bind, current, mode, live.members, Bool.false_and,
      Bool.false_eq_true, if_false, kind]
  refine run.trans ((bind_of_ok rfl).trans ((bind_of_ok (lift_of_ok sync)).trans ?_))
  refine (bind_of_ok (lift_of_ok h₁)).trans ((bind_of_ok (lift_of_ok h₂)).trans ?_)
  refine (bind_of_ok (lift_of_ok h₃)).trans ((bind_of_ok (lift_of_ok h₄)).trans ?_)
  rw [column]
  rfl

/-! ### Programs -/

theorem Item.deep_rows (i : Item) : Deep 0 i.rows := by
  cases i with
  | statement s => exact s.deep_rows 0
  | function d => exact deep_body d.sealed_header (d.body.deep_rows 1)

theorem Program.deep_rows (P : Program) : Deep 0 P.rows := by
  induction P with
  | nil => exact deep_nil
  | cons i rest ih => exact i.deep_rows.append ih

/-- Behind an item is another one, or the end of the text. -/
theorem Program.borders {i : Item} (rest : Program) (hl : Lines i.rows p m b)
    (hrest : Lines (Program.rows rest) (below p i.rows) (m.moved b) e) (he : e.kind = .eof) :
    Borders 0 b := by
  cases rest with
  | nil =>
    obtain rfl : b = e := hrest.moved_eq
    exact .inl he
  | cons j rest =>
    obtain ⟨v, vs, rows, hrows, hv⟩ := j.rows_eq
    have next := hrest
    rw [show Program.rows (j :: rest) = j.rows ++ Program.rows rest from rfl, hrows] at next
    obtain ⟨w, ws, rows', hrows', -⟩ := i.rows_eq
    exact next.onLine.borders (by simp [hrows']) hl.crosses hv

/-- What is done behind a function that is defined. -/
def Program.behind (S : Setting) (rest : Program) (p : Position) :
    Option Signal → Course (Option Signal)
  | none => Program.exec S rest p
  | some signal => return some signal

/-- What is left of a program is run item by item: by induction on it. -/
theorem Program.simulated (hh : Honours g S.apply) (P : Program) :
    ∀ {p : Position} {m : Machine} {σ : Store}, Lines P.rows p m e → e.kind = .eof → Live S m →
      Mirrors g σ m → m.thread.scope = g.root → m.thread.cursor.source = g.source →
      P.exec S p σ = some (o, σ') → Brings g (running 0) m e o σ' := by
  induction P with
  | nil =>
    intro p m σ hl he live hm hscope hsource hrun
    obtain rfl : m.thread.cursor = e := hl.moved_eq
    obtain ⟨rfl, rfl⟩ := Prod.mk.inj (Option.some.inj hrun)
    exact .ends m bare_none (running_stops (.inl he)) hm (.refl g m _)
  | cons i rest ih =>
    intro p m σ hl he live hm hscope hsource hrun
    obtain ⟨b, hfirst, hbehind⟩ := Lines.split i.rows hl
    have borders := Program.borders rest hfirst (hbehind (m.moved b) rfl) he
    have slides := (hbehind (m.moved b) rfl).slides (Program.deep_rows rest)
    obtain ⟨w, ws, rows, hrows, hw⟩ := i.rows_eq
    have line : OnLine p 0 w m.thread.cursor := by
      have := hfirst
      rw [hrows] at this
      exact this.onLine
    have hk : w.kind ≠ .colon := fun h => by
      rw [h] at hw
      contradiction
    have onward (m₁ : Machine) (σ₁ : Store) (hm₁ : Mirrors g σ₁ m₁) (hr : Reaches g m b m₁)
        (hrun : Program.exec S rest (below p i.rows) σ₁ = some (o, σ')) :
        Brings g (running 0) m₁ e o σ' := by
      refine ih (hbehind m₁ hr.cursor) he (live.reaches hr) hm₁ (hr.scope.trans hscope) ?_ hrun
      rw [hr.cursor]
      exact hfirst.source_eq.trans hsource
    cases i with
    | statement s =>
      exact Brings.step line hk live hm (fun h => s.carried hh hfirst borders live hm h) slides (.inl he)
        hrun (fun _ => rfl) onward
    | function d =>
      -- a definition is taken for a statement that ends without a signal
      let define : Course (Option Signal) := do
        modify (·.define d.name.text (.function d (below p [d.header])))
        return none
      have hrun' : (Course.caught define >>= Program.behind S rest (below p (Item.function d).rows)) σ =
          some (o, σ') := by
        rw [← hrun, Program.exec, ← below_cons]
        rfl
      refine Brings.step line hk live hm (fun h => ?_) slides (.inl he) hrun' (fun _ => rfl) onward
      obtain ⟨rfl, rfl⟩ := Prod.mk.inj (Option.some.inj h)
      exact carries_definition borders hfirst live hm hscope hsource

/-! ### Sessions -/

/-- What stays the same while a program runs in a new session. -/
def Program.scene (P : Program) (env : Environment) : Scene where
  source := ⟨0, P.text⟩
  root := ⟨0⟩
  limit := env.maxCallDepth
  depth := 0
  floor := 1
  low := Nat.zero_lt_one

/-- A new session on the first token of a program. -/
def beginning (env : Environment) (c : Cursor) : Machine :=
  { Machine.new env with sources := 1, thread := { cursor := c, scope := ⟨0⟩ } }

/-- Nothing is bound in a new session. -/
theorem mirrors_beginning (P : Program) (env : Environment) (c : Cursor) :
    Mirrors (P.scene env) {} (beginning env c) where
  tree := Scopes.Tree.push Scopes.Built.empty.tree Dict.indexed_empty nofun
  globals := rfl
  parent := rfl
  plain := rfl
  made := Nat.zero_lt_one
  names x := by
    have free : ({} : Dict Value).get? x = none := by simp [Dict.get?]
    show Answers (P.scene env) _ (({} : Dict Value).get? x) none
    rw [free]
    trivial
  output := rfl
  away := nofun
  layers := .root
  floor := Nat.le_refl 1
  sync := rfl
  depth := rfl
  limit := rfl

/-- A printed program can be read. -/
theorem Program.ofSource (P : Program) : ∃ c e, Cursor.ofSource ⟨0, P.text⟩ = .ok c ∧
    (∀ m : Machine, m.thread.cursor = c → Lines P.rows (.origin 0) m e) ∧ e.kind = .eof := by
  obtain ⟨t, behind, ht, -⟩ := scan_print (p := .origin 0) rfl P.rows
  have read : Cursor.ofSource ⟨0, P.text⟩ = .ok ⟨⟨0, P.text⟩, t, behind, 0⟩ := by
    rw [Cursor.ofSource, show scan (Source.origin ⟨0, P.text⟩) P.text = .ok (t, behind) from ht]
    rfl
  obtain ⟨e, crosses, he⟩ := crosses_print (c := ⟨⟨0, P.text⟩, t, behind, 0⟩) rfl ht
  exact ⟨_, e, read, fun m hm => ⟨hm ▸ crosses, hm ▸ (Cursor.sound_ofSource read).1, rfl⟩, he⟩

/-- What a session makes of the end of a program. -/
theorem ending_of_pending (w : World) {s : Option Signal} (bare : Bare s) :
    Machine.ending w (.ofPending s) = Tree.ending (.ok s) := by
  match s, bare with
  | none, _ | some .stop, _ | some .again, _ | some (.result _), _ => rfl
  | some (.raised r), bare =>
    have scalar := bare r.value (by simp [Signal.carried])
    obtain ⟨v, line, column⟩ := r
    cases v <;> first | rfl | contradiction

/-- A new session reads a printed program and runs it as one body. -/
theorem Program.runSource_eq (env : Environment) {P : Program} {c : Cursor}
    (read : Cursor.ofSource ⟨0, P.text⟩ = .ok c) (fuel : Nat) :
    (Machine.new env).runSource (String.ofList P.text) fuel =
      match (jobs fuel).body 1 (beginning env c) with
      | .ok status m => ((Machine.ending m.world status).mapError .failure, m)
      | .error fault m => (.error fault, m) := by
  rw [Machine.runSource, String.toList_ofList, show (Machine.new env).sources = 0 from rfl, read]
  rfl

/-- A new session that runs a printed program, with enough fuel, prints what the tree prints, ends as
the tree ends, and then binds the names that the tree binds: each to the same scalar, or to the same
function. -/
theorem run_of_tree (env : Environment) {P : Program} {n : Nat} {ends : Except Failure Unit}
    (hrun : P.run env.maxCallDepth n = some (ends, σ)) :
    ∃ m enough, (∀ fuel, enough ≤ fuel → (Machine.new env).runSource (String.ofList P.text) fuel =
      (ends.mapError .failure, m)) ∧ m.output = σ.output ∧
        ∀ x, Answers (P.scene env) m.world (m.global? x) (σ.globals x) := by
  obtain ⟨⟨o, σ⟩, hexec, h⟩ := Option.map_eq_some_iff.1 hrun
  obtain ⟨rfl, rfl⟩ := Prod.mk.inj h
  obtain ⟨c, e, read, lines, he⟩ := P.ofSource
  let m₀ := beginning env c
  have hh : Honours (P.scene env) (invoke env.maxCallDepth n 0) := honours_invoke n (P.scene env) rfl
  have live : Live { apply := invoke env.maxCallDepth n 0, rounds := n } m₀ :=
    ⟨rfl, rfl, rfl, ⟨fun _ => rfl, fun _ => rfl⟩, rfl⟩
  have source : m₀.thread.cursor.source = (P.scene env).source := (Cursor.sound_ofSource read).2
  have simulated := Program.simulated hh P (lines m₀ rfl) he live (mirrors_beginning P env c) rfl source
    hexec
  cases simulated with
  | @ends _ s m bare hx hm hr =>
    obtain ⟨enough, hx⟩ := hx.body live.resume
    refine ⟨m, enough, fun fuel hf => ?_, hm.output, hm.global?⟩
    rw [Program.runSource_eq env read, show (jobs fuel).body 1 m₀ = _ from hx fuel fuel hf hf]
    show ((Machine.ending m.world (.ofPending s)).mapError Fault.failure, m) = _
    -- a signal that the program ends with is its result or its exception
    rw [ending_of_pending m.world bare]
  | @failed _ f m hx rooted =>
    obtain ⟨enough, hx⟩ := hx.body live.resume
    refine ⟨m, enough, fun fuel hf => ?_, rooted.output, rooted.global?⟩
    rw [Program.runSource_eq env read, show (jobs fuel).body 1 m₀ = _ from hx fuel fuel hf hf]
    rfl

theorem goesOn_nil : ∀ c ∈ ([] : List Char), Text.isIdentPart c = true := by
  simp

/-- A name of one letter. -/
def letter (c : Char) (hc : Text.isIdentStart c = true)
    (free : TokenKind.keyword? (String.ofList [c]) = none) : Identifier :=
  ⟨c, [], hc, goesOn_nil, free⟩

/-- The digits of a number below ten. -/
def single (n : Fin 10) : Digits where
  chars := [Nat.digitChar n]
  nonempty := by simp
  digit := by
    simp only [List.mem_singleton, forall_eq]
    revert n
    decide

theorem fits_single (n : Fin 10) : natOfDigits (single n).chars ≤ maxInt := by
  revert n
  decide

/-- A literal of one digit. -/
def digit (n : Fin 10) : Literal := .int (single n) (fits_single n)

/-- A program with a function, a loop, an exception that is caught and a call of the function. -/
def farewell : Program :=
  let f := letter 'f' (by decide) (by decide +kernel)
  let i := letter 'i' (by decide) (by decide +kernel)
  let e := letter 'e' (by decide) (by decide +kernel)
  let two : Term := .literal (digit 2)
  let bye : Term := .literal (.text ['b', 'y', 'e'] (by decide))
  let called : Term := .call (.function f (by decide)) (.cons (.name i) .nil)
  [ .function ⟨f, [i], by simp, .one (.result (some (.binary .plus (.name i) (.name i))))⟩,
    .statement (.rangeLoop i (.literal (digit 1)) two none (.one (.attempt
      (.cons (.branch (.binary .eq (.name i) two) (.one (.raise bye)) .done)
        (.one (.call .display (.cons called .nil))))
      (.handler (some e) (.one (.call .display (.cons (.name e) .nil))) .none)))) ]

example : String.ofList farewell.text =
    "funct : f ( i ) :\n    return : i + i :\nloop : for i from 1 to 2 :\n    try :\n" ++
    "        if : i == 2 :\n            raise : \"bye\" :\n        show ( f ( i ) ) :\n" ++
    "    catch as e :\n        show ( e ) :\n" := by
  decide +kernel

theorem run_of_farewell : ∃ m enough, (∀ fuel, enough ≤ fuel →
    (Machine.new {}).runSource (String.ofList farewell.text) fuel = (.ok (), m)) ∧
      m.output = "2\nbye\n" := by
  obtain ⟨m, enough, run, output, -⟩ := run_of_tree {} (P := farewell) (n := 5) rfl
  exact ⟨m, enough, run, output.trans (by rfl)⟩

end Rewind.Tree
