/-
Settings written and read back.

What is written of settings is a section for the run and one for the log.  Each line is a name and a
value, and the reader gives back the very value whatever stands on the lines behind, so that the
sections are read line by line to the entries they were written from.  Laid over what is built in,
these entries leave none of its values.

* `Simple` — a text that stands for itself between quotes;
* `Reads` — characters at the end of a line that are read as a value;
* `lines?_settings` — the lines of a section;
* `load_toToml` — settings that are written to a file and loaded from it.
-/
import Rewind.Proofs.Entries
import Rewind.Settings
import Mathlib

namespace Rewind

namespace Toml

/-! ### Texts between quotes -/

/-- The text stands for itself between quotes. -/
def Simple (cs : List Char) : Prop :=
  ∀ c ∈ cs, ' ' ≤ c ∧ c ≠ '\x7f' ∧ c ≠ '"' ∧ c ≠ '\\'

instance (cs : List Char) : Decidable (Simple cs) := List.decidableBAll _ cs

variable {cs : List Char}

namespace Simple

theorem isPlain (h : Simple cs) : ∀ c ∈ cs, Toml.isPlain c = true := by
  intro c hc
  obtain ⟨low, del, -, -⟩ := h c hc
  simp only [Toml.isPlain, Bool.or_eq_true, Bool.and_eq_true, decide_eq_true_eq, bne_iff_ne]
  exact .inr ⟨low, del⟩

theorem not_mem (h : Simple cs) {c : Char} (hc : c < ' ' ∨ c = '"' ∨ c = '\\') : c ∉ cs := by
  intro mem
  obtain ⟨low, -, quote, backslash⟩ := h c mem
  rcases hc with below | rfl | rfl
  · exact absurd low (Char.not_le.2 below)
  · exact quote rfl
  · exact backslash rfl

theorem escape? (h : Simple cs) : ∀ c ∈ cs, Toml.escape? false c = none := by
  intro c hc
  have marks : escapes.find? (·.2 == c) = none := by
    refine List.find?_eq_none.2 fun e he heq => ?_
    have special : ∀ e ∈ escapes, e.2 < ' ' ∨ e.2 = '"' ∨ e.2 = '\\' := by decide
    obtain rfl := eq_of_beq heq
    exact h.not_mem (special e he) hc
  simp only [Toml.escape?, marks, h.isPlain c hc, if_true, Bool.false_and, Bool.or_false, ite_self]

theorem quotedChars (h : Simple cs) : Toml.quotedChars false 0 0 cs = cs := by
  induction cs with
  | nil => rfl
  | cons c rest ih =>
    have quote := (h c List.mem_cons_self).2.2.1
    rw [Toml.quotedChars, if_neg quote, h.escape? c List.mem_cons_self,
      ih fun d hd => h d (List.mem_cons_of_mem _ hd)]
    rfl

theorem longestRun (h : Simple cs) : Toml.longestRun '"' cs = 0 := by
  refine List.foldlRecOn (motive := fun run : Nat × Nat => run.2 = 0) cs _ rfl fun run hrun c hc => ?_
  have quote : (c == '"') = false := beq_false_of_ne (h c hc).2.2.1
  rw [quote]
  exact hrun

theorem form (h : Simple cs) : Form.of cs = .basic := by
  have escapes : cs.any needsEscape = false := by
    refine List.any_eq_false.2 fun c hc => ?_
    rw [needsEscape, h.isPlain c hc, Bool.not_true, Bool.and_false]
    exact Bool.false_ne_true
  have lines : cs.contains '\n' = false := by
    rw [List.contains_eq_mem, decide_eq_false_iff_not]
    exact h.not_mem (.inl (by decide))
  have backslash : cs.contains '\\' = false := by
    rw [List.contains_eq_mem, decide_eq_false_iff_not]
    exact h.not_mem (.inr (.inr rfl))
  rw [Form.of, escapes, lines, backslash, h.longestRun]
  rfl

end Simple

/-- Such a text is written between quotes as it is. -/
theorem quote_of_simple {s : String} (h : Simple s.toList) :
    (quote s).toList = '"' :: (s.toList ++ ['"']) := by
  rw [quote, h.form, Form.write, h.quotedChars, String.toList_ofList]

theorem basicString_of_simple (h : Simple cs) (rest : List Char) :
    basicString (cs ++ '"' :: rest) = some (cs, rest) := by
  induction cs with
  | nil => rw [List.nil_append, basicString, if_pos rfl]
  | cons c more ih =>
    obtain ⟨-, -, quote, backslash⟩ := h c List.mem_cons_self
    rw [List.cons_append, basicString, if_neg quote, if_neg backslash,
      if_pos (h.isPlain c List.mem_cons_self), ih fun d hd => h d (List.mem_cons_of_mem _ hd)]
    rfl

/-- It is read back if no quote stands behind. -/
theorem string?_quote {s : String} (h : Simple s.toList) {rest : List Char}
    (hr : rest.head? ≠ some '"') :
    string? ((quote s).toList ++ rest) = some (s.toList, rest) := by
  have read := basicString_of_simple h rest
  rw [quote_of_simple h, List.cons_append, List.append_assoc, List.singleton_append]
  rw [string?]
  · exact read
  · intro more heq
    cases hs : s.toList with
    | nil =>
      rw [hs, List.nil_append, List.cons.injEq] at heq
      rw [heq.2] at hr
      exact hr rfl
    | cons c cs =>
      rw [hs, List.cons_append, List.cons.injEq] at heq
      have := h c (hs ▸ List.mem_cons_self)
      exact this.2.2.1 heq.1

theorem valueWithin?_of_head {c : Char} (hc : c ≠ '[' ∧ c ≠ '\x7b') (depth : Nat)
    (cs : List Char) :
    valueWithin? depth (c :: cs) = ((string? (c :: cs)).map fun (s, rest) =>
      (Datum.str (String.ofList s), rest)).orElse fun _ => word? (c :: cs) := by
  cases depth <;> rw [valueWithin?] <;> simp [hc.1, hc.2]

theorem valueWithin?_quote {s : String} (h : Simple s.toList) (depth : Nat) (rest : List Char)
    (hr : rest.head? ≠ some '"') :
    valueWithin? depth ((quote s).toList ++ rest) = some (.str s, rest) := by
  have read := string?_quote h hr
  rw [quote_of_simple h, List.cons_append] at read ⊢
  rw [valueWithin?_of_head (by decide), read]
  show some (Datum.str (String.ofList s.toList), rest) = _
  rw [String.ofList_toList]

/-! ### Numbers -/

/-- A word of digits. -/
def Digital (ds : List Char) : Prop := ∀ c ∈ ds, c.isDigit = true

namespace Digital

variable {ds : List Char}

theorem head (h : Digital ds) {c : Char} {rest : List Char} (hds : ds = c :: rest) :
    c.isDigit = true := h c (hds ▸ List.mem_cons_self)

theorem behind? (h : Digital ds) {c : Char} (hc : c.isDigit = false) (n : Nat) :
    Toml.behind? c (ds.drop n) = none := by
  cases hd : ds.drop n with
  | nil => rfl
  | cons d rest =>
    have digit : d.isDigit = true := h d (List.mem_of_mem_drop (hd ▸ List.mem_cons_self))
    refine if_neg fun heq => ?_
    rw [heq, hc] at digit
    exact Bool.false_ne_true digit

theorem date? (h : Digital ds) : Toml.date? ds = none := by
  rw [Toml.date?, Toml.digits?]
  split
  · simp only [Option.bind_eq_bind, Option.bind_some, h.behind? (by decide : '-'.isDigit = false),
      Option.bind_none]
  · rfl

theorem clock? (h : Digital ds) : Toml.clock? ds = none := by
  rw [Toml.clock?, Toml.digits?]
  split
  · simp only [Option.bind_eq_bind, Option.bind_some, h.behind? (by decide : ':'.isDigit = false),
      Option.bind_none]
  · rfl

theorem moment? (h : Digital ds) : Toml.moment? ds = none := by
  rw [Toml.moment?, h.date?, h.clock?]

theorem groupedDigits? (h : Digital ds) (hne : ds ≠ []) :
    Toml.groupedDigits? Char.isDigit ds = some ds := by
  have single : ds.splitOn '_' = [ds] := by
    refine List.splitOnP_eq_singleton fun c hc => beq_false_of_ne fun heq => ?_
    have digit := h c hc
    rw [heq] at digit
    exact absurd digit (by decide)
  rw [Toml.groupedDigits?, single]
  simp only [List.all_cons, List.all_nil, Bool.and_true, List.isEmpty_eq_false_iff.2 hne,
    Bool.not_false, List.all_eq_true.2 h, if_true, List.flatten_cons,
    List.flatten_nil, List.append_nil]

theorem signed (h : Digital ds) : Toml.signed ds = (false, ds) := by
  unfold Toml.signed
  split
  · exact absurd (h.head rfl) (by decide)
  · exact absurd (h.head rfl) (by decide)
  · rfl

/-- A letter for a base cannot stand behind the first digit. -/
theorem unbounded? (h : Digital ds) (hne : ds ≠ []) (hz : ds.length = 1 ∨ ds.head? ≠ some '0') :
    Toml.unbounded? ds = some (natOfDigits ds : Int) := by
  unfold Toml.unbounded?
  split
  · exact absurd (h 'x' (by simp)) (by decide)
  · exact absurd (h 'o' (by simp)) (by decide)
  · exact absurd (h 'b' (by simp)) (by decide)
  · simp only [h.signed, leading?, h.groupedDigits? hne, Option.bind_eq_bind, Option.bind_some,
      if_pos hz, Bool.false_eq_true, if_false]

theorem wordValue? (h : Digital ds) (hne : ds ≠ []) (hz : ds.length = 1 ∨ ds.head? ≠ some '0')
    (hm : natOfDigits ds ≤ maxInt) : Toml.wordValue? ds = some (.int (natOfDigits ds)) := by
  have word (s : String) {c : Char} (hs : c ∈ s.toList) (hc : c.isDigit = false) :
      String.ofList ds ≠ s := by
    rintro rfl
    rw [String.toList_ofList] at hs
    rw [h c hs] at hc
    exact Bool.false_ne_true hc.symm
  have range : minInt ≤ (natOfDigits ds : Int) ∧ (natOfDigits ds : Int) ≤ maxInt := by
    unfold minInt
    exact ⟨by omega, by exact_mod_cast hm⟩
  unfold Toml.wordValue?
  split
  · exact absurd ‹_› (word "true" (c := 't') (by decide) (by decide))
  · exact absurd ‹_› (word "false" (c := 'f') (by decide) (by decide))
  · rw [h.moment?, integer?, h.unbounded? hne hz]
    simp only [Option.bind_eq_bind, Option.bind_some, if_pos range]
    rfl

end Digital

/-- A number above zero does not begin with a zero. -/
theorem head?_toDigits {n : Nat} (hn : 0 < n) : (Nat.toDigits 10 n).head? ≠ some '0' := by
  induction n using Nat.strongRecOn with
  | ind n ih =>
    rw [Nat.toDigits_eq_if (by decide)]
    split
    · rename_i small
      simp only [List.head?_cons, ne_eq, Option.some.injEq]
      have : ∀ d < 10, 0 < d → d.digitChar ≠ '0' := by decide
      exact this n small hn
    · rename_i large
      rw [List.head?_append_of_ne_nil _ Nat.toDigits_ne_nil]
      exact ih (n / 10) (by omega) (by omega)

theorem word?_of_word {cs : List Char} {d : Datum} (hw : ∀ c ∈ cs, isWordChar c = true)
    (hd : wordValue? cs = some d) (rest : List Char) :
    word? (cs ++ '\n' :: rest) = some (d, '\n' :: rest) := by
  have stop : isWordChar '\n' = false := by decide
  have word : (cs ++ '\n' :: rest).takeWhile isWordChar = cs := by
    rw [List.takeWhile_append_of_pos hw, List.takeWhile_cons_of_neg (by rw [stop]; simp),
      List.append_nil]
  have behind : (cs ++ '\n' :: rest).dropWhile isWordChar = '\n' :: rest := by
    rw [List.dropWhile_append_of_pos hw, List.dropWhile_cons_of_neg (by rw [stop]; simp)]
  rw [word?, word, behind, hd]
  rfl

theorem string?_of_head {c : Char} (hq : c ≠ '"') (ha : c ≠ '\'') (cs : List Char) :
    string? (c :: cs) = none := by
  unfold string?
  split
  · exact absurd (List.cons.inj ‹_›).1 hq
  · exact absurd (List.cons.inj ‹_›).1 hq
  · exact absurd (List.cons.inj ‹_›).1 ha
  · exact absurd (List.cons.inj ‹_›).1 ha
  · rfl

/-- The characters at the end of a line are read as a value, whatever the lines behind. -/
def Reads (cs : List Char) (d : Datum) : Prop :=
  ∀ rest, value? (skipBlanks (' ' :: (cs ++ '\n' :: rest))) = some (d, '\n' :: rest)

theorem skipBlanks_of_head {c : Char} (hc : isBlank c = false) (cs : List Char) :
    skipBlanks (c :: cs) = c :: cs :=
  List.dropWhile_cons_of_neg (by rw [hc]; exact Bool.false_ne_true)

theorem reads_number {n : Nat} (hn : 0 < n) (hm : n ≤ maxInt) :
    Reads (toString n).toList (.int n) := by
  intro rest
  have digits : Digital (Nat.toDigits 10 n) := fun c hc =>
    Nat.isDigit_of_mem_toDigits (by decide) (by decide) hc
  have number : natOfDigits (Nat.toDigits 10 n) = n := Nat.ofDigitChars_ten_toDigits
  have value := digits.wordValue? Nat.toDigits_ne_nil (.inr (head?_toDigits hn))
    (by rwa [number])
  rw [number] at value
  have word : ∀ c ∈ Nat.toDigits 10 n, isWordChar c = true := fun c hc => by
    simp only [isWordChar, Char.isAlphanum, digits c hc, Bool.or_true, Bool.true_or]
  have read := word?_of_word word value rest
  have text : (toString n).toList = Nat.toDigits 10 n := by
    rw [Nat.toString_eq_repr, Nat.repr_eq_ofList_toDigits, String.toList_ofList]
  rw [text]
  cases hd : Nat.toDigits 10 n with
  | nil => exact absurd hd Nat.toDigits_ne_nil
  | cons c ds =>
    have digit := digits.head hd
    -- a value that begins with a digit is no list, no table and no text
    have other {d : Char} (h : d.isDigit = false) : c ≠ d := by
      rintro rfl
      rw [digit] at h
      exact Bool.false_ne_true h.symm
    have blank : isBlank c = false := by
      rw [isBlank, beq_false_of_ne (other (by decide)), beq_false_of_ne (other (by decide))]
      rfl
    rw [hd, List.cons_append] at read
    rw [List.cons_append, skipBlanks, List.dropWhile_cons_of_pos rfl]
    show value? (skipBlanks _) = _
    rw [skipBlanks_of_head blank, value?,
      valueWithin?_of_head ⟨other (by decide), other (by decide)⟩, 
      string?_of_head (other (by decide)) (other (by decide)), read]
    rfl

/-! ### Lists -/

theorem skipTrivia?_of_skipLines {c : Char} {cs rest : List Char} (h : skipLines cs = c :: rest)
    (hc : c ≠ '#') : skipTrivia? cs = some (c :: rest) := by
  rw [skipTrivia?]
  split
  · exact absurd (List.cons.inj (h.symm.trans ‹_›)).1 hc
  · rw [h]

/-- Behind a list's first characters stands an item, and a comma or the bracket. -/
theorem items?_of_item {item : List Char → Option (Datum × List Char)} {c : Char}
    {cs start rest more : List Char} {d : Datum} (hcs : skipLines cs = c :: start)
    (hc : c ≠ '#' ∧ c ≠ ']') (hitem : item (c :: start) = some (d, rest)) :
    (rest = ',' :: more → more.length < cs.length →
      items? item cs = (items? item more).map fun (ds, rest) => (d :: ds, rest)) ∧
    (rest = ']' :: more → items? item cs = some ([d], more)) := by
  have first := skipTrivia?_of_skipLines hcs hc.1
  rw [items?, first]
  split
  · rename_i heq
    exact absurd heq (by simp)
  · rename_i heq
    exact absurd (List.cons.inj (Option.some.inj heq)).1 hc.2
  · rename_i heq
    obtain rfl := Option.some.inj heq
    simp only [hitem]
    -- behind an item stands a comma, and more of them, or the bracket that closes the list
    constructor
    · rintro rfl hlen
      rw [skipTrivia?_of_skipLines (show skipLines (',' :: more) = ',' :: more from rfl) (by decide)]
      exact if_pos hlen
    · rintro rfl
      rw [skipTrivia?_of_skipLines (show skipLines (']' :: more) = ']' :: more from rfl) (by decide)]
      rfl

/-- The lines a list of several texts takes. -/
def rows (items : List String) : List Char :=
  items.flatMap fun s => ' ' :: ' ' :: ' ' :: ' ' :: ((quote s).toList ++ [',', '\n'])

theorem items?_rows {items : List String} (h : ∀ s ∈ items, Simple s.toList) (depth : Nat)
    (rest : List Char) :
    items? (valueWithin? depth) ('\n' :: (rows items ++ ']' :: rest)) =
      some (items.map .str, rest) := by
  induction items with
  | nil =>
    -- the last row ends with a comma, behind which the bracket may stand
    have close : skipLines ('\n' :: (rows [] ++ ']' :: rest)) = ']' :: rest := rfl
    rw [items?, skipTrivia?_of_skipLines close (by decide)]
    rfl
  | cons s items ih =>
    have simple := h s List.mem_cons_self
    have value := valueWithin?_quote simple depth (',' :: '\n' :: (rows items ++ ']' :: rest))
      (by simp)
    have text : rows (s :: items) ++ ']' :: rest =
        ' ' :: ' ' :: ' ' :: ' ' ::
          ((quote s).toList ++ ',' :: '\n' :: (rows items ++ ']' :: rest)) := by
      simp [rows]
    rw [text]
    rw [quote_of_simple simple] at value ⊢
    rw [(items?_of_item rfl (by decide) value).1 rfl ?_,
      ih fun t ht => h t (List.mem_cons_of_mem _ ht)]
    · rfl
    · simp only [List.length_cons, List.length_append]
      omega

theorem items?_single {s : String} (hs : Simple s.toList) (depth : Nat) (rest : List Char) :
    items? (valueWithin? depth) ((quote s).toList ++ ']' :: rest) = some ([.str s], rest) := by
  have value := valueWithin?_quote hs depth (']' :: rest) (by simp)
  rw [quote_of_simple hs] at value ⊢
  exact (items?_of_item rfl (by decide) value).2 rfl

theorem items?_nil (item : List Char → Option (Datum × List Char)) (rest : List Char) :
    items? item (']' :: rest) = some ([], rest) := by
  rw [items?, skipTrivia?_of_skipLines rfl (by decide)]
  rfl

theorem toList_listText_of_two (s t : String) (items : List String) :
    (Settings.listText (s :: t :: items)).toList =
      '[' :: '\n' :: (rows (s :: t :: items) ++ [']']) := by
  rw [Settings.listText]
  · simp [String.toList_join, rows, List.flatMap_map]
  all_goals simp

/-- A list is read back, on however many lines it stands. -/
theorem reads_listText {items : List String} (h : ∀ s ∈ items, Simple s.toList) :
    Reads (Settings.listText items).toList (.list (items.map .str)) := by
  intro rest
  obtain ⟨body, text, read⟩ : ∃ body, (Settings.listText items).toList = '[' :: body ∧
      items? (valueWithin? 78) (body ++ '\n' :: rest) = some (items.map .str, '\n' :: rest) := by
    match items with
    | [] => exact ⟨[']'], rfl, items?_nil _ _⟩
    | [s] =>
      refine ⟨(quote s).toList ++ [']'], by simp [Settings.listText], ?_⟩
      rw [List.append_assoc]
      exact items?_single (h s List.mem_cons_self) 78 _
    | s :: t :: items =>
      refine ⟨_, toList_listText_of_two s t items, ?_⟩
      rw [List.cons_append, List.append_assoc]
      exact items?_rows h 78 _
  rw [text]
  show (items? (valueWithin? 78) (body ++ '\n' :: rest)).map _ = _
  rw [read]
  rfl

/-! ### Lines -/

/-- A name that is written without quotes. -/
def Bare (name : String) : Prop :=
  name.toList ≠ [] ∧ ∀ c ∈ name.toList, isNameChar c = true

instance (name : String) : Decidable (Bare name) :=
  @instDecidableAnd _ _ _ (List.decidableBAll _ name.toList)

/-- A bare name begins with none of the marks of a line. -/
theorem Bare.cons {name : String} (h : Bare name) :
    ∃ c cs, name.toList = c :: cs ∧ isNameChar c = true := by
  obtain ⟨hne, all⟩ := h
  cases hn : name.toList with
  | nil => exact absurd hn hne
  | cons c cs => exact ⟨c, cs, rfl, all c (hn ▸ List.mem_cons_self)⟩

theorem ne_of_isNameChar {c d : Char} (hc : isNameChar c = true) (hd : isNameChar d = false) :
    c ≠ d := by
  rintro rfl
  rw [hc] at hd
  exact Bool.false_ne_true hd.symm

theorem isBlank_of_isNameChar {c : Char} (hc : isNameChar c = true) : isBlank c = false := by
  rw [isBlank, beq_false_of_ne (ne_of_isNameChar hc (by decide)),
    beq_false_of_ne (ne_of_isNameChar hc (by decide))]
  rfl

theorem name?_bare {name : String} (h : Bare name) {d : Char} (hd : isNameChar d = false)
    (rest : List Char) : name? (name.toList ++ d :: rest) = some (name, d :: rest) := by
  have stop : ¬isNameChar d = true := by
    rw [hd]
    exact Bool.false_ne_true
  have word : (name.toList ++ d :: rest).takeWhile isNameChar = name.toList := by
    rw [List.takeWhile_append_of_pos h.2, List.takeWhile_cons_of_neg stop, List.append_nil]
  have behind : (name.toList ++ d :: rest).dropWhile isNameChar = d :: rest := by
    rw [List.dropWhile_append_of_pos h.2, List.dropWhile_cons_of_neg stop]
  obtain ⟨c, cs, hn, hc⟩ := h.cons
  -- the first character is that of a bare name, so no quote opens it
  unfold name?
  split
  · rename_i heq
    rw [hn] at heq
    exact absurd (List.cons.inj heq).1 (ne_of_isNameChar hc (by decide))
  · rename_i heq
    rw [hn] at heq
    exact absurd (List.cons.inj heq).1 (ne_of_isNameChar hc (by decide))
  · rw [word, behind, hn, ← hn]
    show (if name.toList.isEmpty then none else some (String.ofList name.toList, d :: rest)) = _
    rw [if_neg (by rw [hn]; exact Bool.false_ne_true), String.ofList_toList]

/-- A key of one name. -/
theorem key?_bare {name : String} (h : Bare name) {c d : Char} {rest more : List Char}
    (hd : isNameChar d = false) (hmore : skipBlanks (d :: rest) = c :: more) (hc : c ≠ '.') :
    key? (name.toList ++ d :: rest) = some ([name], c :: more) := by
  obtain ⟨first, cs, hn, hfirst⟩ := h.cons
  have start : skipBlanks (name.toList ++ d :: rest) = name.toList ++ d :: rest := by
    rw [hn]
    exact skipBlanks_of_head (isBlank_of_isNameChar hfirst) _
  rw [key?, nestingLimit, names?, start, name?_bare h hd]
  simp only [Option.bind_eq_bind, Option.bind_some, hmore]
  split
  · rename_i heq
    exact absurd (List.cons.inj heq).1 hc
  · rfl

/-- The line of a setting. -/
structure Line where
  name : String
  text : String
  value : Datum

namespace Line

/-- The name is bare, and the value is read back. -/
def Sound (l : Line) : Prop := Bare l.name ∧ Reads l.text.toList l.value

/-- The line as it is written. -/
def chars (l : Line) : List Char :=
  l.name.toList ++ ' ' :: '=' :: ' ' :: (l.text.toList ++ ['\n'])

/-- What the line leaves in its table. -/
def entry (l : Line) : String × Node := (l.name, .value l.value)

end Line

/-- The progress below a header. -/
def below (earlier : Entries) (name : String) (es : Entries) : Progress :=
  ⟨earlier ++ [(name, .table .opened es)], [name]⟩

variable {earlier es : Entries} {name : String}

theorem lookup_append_self {α : Type} {key : String} {v : α} {entries : List (String × α)}
    (h : key ∉ entries.map (·.1)) : (entries ++ [(key, v)]).lookup key = some v := by
  rw [List.lookup_append, lookup_eq_none_iff.2 h]
  simp

theorem alter_append_self {α : Type} {key : String} {v : α} (f : Option α → α)
    {entries : List (String × α)} (h : key ∉ entries.map (·.1)) :
    alter key f (entries ++ [(key, v)]) = entries ++ [(key, f (some v))] := by
  induction entries with
  | nil => simp [alter]
  | cons e rest ih =>
    rw [List.map_cons, List.mem_cons, not_or] at h
    rw [List.cons_append, alter, if_neg (Ne.symm h.1), ih h.2]
    rfl

theorem lineEnd?_of_head {c : Char} (hn : c ≠ '\n') (hr : c ≠ '\r') (cs : List Char) :
    lineEnd? (c :: cs) = none := by
  unfold lineEnd?
  split
  · exact absurd (List.cons.inj ‹_›).1 hn
  · exact absurd (List.cons.inj ‹_›).1 hr
  · rfl

/-- A line with a key. -/
theorem line?_of_key {p : Progress} {c : Char} {cs rest more : List Char} {key : List String}
    {v : Datum} (hc : isNameChar c = true) (hkey : key? (c :: cs) = some (key, '=' :: rest))
    (hv : value? (skipBlanks rest) = some (v, '\n' :: more))
    (hes : within? (insert? v key) p.path p.entries = some es) :
    line? p (c :: cs) = some ({ p with entries := es }, more) := by
  unfold line?
  split
  · exact absurd (List.cons.inj ‹_›).1 (ne_of_isNameChar hc (by decide))
  · exact absurd (List.cons.inj ‹_›).1 (ne_of_isNameChar hc (by decide))
  · exact absurd (List.cons.inj ‹_›).1 (ne_of_isNameChar hc (by decide))
  · rw [lineEnd?_of_head (ne_of_isNameChar hc (by decide)) (ne_of_isNameChar hc (by decide))]
    simp only [Option.bind_eq_bind, hkey, Option.bind_some, behind?, if_true, hv, hes]
    rfl

/-- One line adds its entry to the table of the last header. -/
theorem line?_setting {l : Line} (hl : l.Sound) (hname : name ∉ earlier.map (·.1))
    (hes : l.name ∉ es.map (·.1)) (rest : List Char) :
    line? (below earlier name es) (l.chars ++ rest) =
      some (below earlier name (es ++ [l.entry]), rest) := by
  obtain ⟨bare, reads⟩ := hl
  obtain ⟨c, cs, hn, hc⟩ := bare.cons
  have text : l.chars ++ rest =
      l.name.toList ++ ' ' :: '=' :: ' ' :: (l.text.toList ++ '\n' :: rest) := by
    simp [Line.chars]
  have mark : skipBlanks (' ' :: '=' :: ' ' :: (l.text.toList ++ '\n' :: rest)) =
      '=' :: ' ' :: (l.text.toList ++ '\n' :: rest) := rfl
  have key := key?_bare bare (by decide) mark (by decide)
  -- the section is open already, and has no setting of this name yet
  have added : within? (insert? l.value [l.name]) [name] (below earlier name es).entries =
      some (below earlier name (es ++ [l.entry])).entries := by
    rw [below, within?, lookup_append_self hname]
    simp only [within?, insert?, lookup_eq_none_iff.2 hes, Option.isSome_none, Bool.false_eq_true,
      if_false, Option.map_some, Entries.put, alter_append_self _ hname, alter_of_not_mem _ hes]
    rfl
  rw [text]
  rw [hn, List.cons_append] at key ⊢
  exact line?_of_key hc key (reads rest) added

/-- A header opens a new table. -/
theorem line?_header {p : Progress} (bare : Bare name) (hname : name ∉ p.entries.map (·.1))
    (rest : List Char) :
    line? p ('[' :: (name.toList ++ ']' :: '\n' :: rest)) = some (below p.entries name [], rest) := by
  obtain ⟨c, cs, hn, hc⟩ := bare.cons
  -- behind the bracket there is nothing but the end of the line
  have close : skipBlanks (']' :: '\n' :: rest) = ']' :: '\n' :: rest := rfl
  have key := key?_bare bare (by decide) close (by decide)
  have header : header? [']'] (name.toList ++ ']' :: '\n' :: rest) = some ([name], rest) := by
    rw [header?, key]
    rfl
  have opened : p.enter? open? [name] = some (below p.entries name []) := by
    -- no table of this name has been opened, so a new one is
    have new : open? name p.entries = some (p.entries ++ [(name, .table .opened [])]) := by
      rw [open?, lookup_eq_none_iff.2 hname]
      simp only [Entries.put, alter_of_not_mem _ hname]
    simp only [Progress.enter?, List.getLast?_singleton, Option.bind_eq_bind, Option.bind_some,
      List.dropLast_singleton, within?, new]
    rfl
  rw [hn] at header ⊢
  unfold line?
  split
  · exact absurd (List.cons.inj ‹_›).1 (by decide)
  · exact absurd (List.cons.inj (List.cons.inj ‹_›).2).1 (ne_of_isNameChar hc (by decide))
  · rename_i heq
    rw [← (List.cons.inj heq).2]
    simp only [Option.bind_eq_bind, header, Option.bind_some, opened]
  · rename_i none
    exact (none _ rfl).elim

theorem lines?_of_line? {p q : Progress} {c : Char} {cs rest : List Char}
    (hc : isBlank c = false) (h : line? p (c :: cs) = some (q, rest))
    (hlen : rest.length ≤ cs.length) : lines? p (c :: cs) = lines? q rest := by
  rw [lines?, skipBlanks_of_head hc]
  simp only [h]
  exact if_pos (Nat.lt_succ_of_le hlen)

/-- The lines of a section are read one by one. -/
theorem lines?_settings (hname : name ∉ earlier.map (·.1)) {ls : List Line}
    (hls : ∀ l ∈ ls, l.Sound) (hes : (es.map (·.1) ++ ls.map (·.name)).Nodup) (rest : List Char) :
    lines? (below earlier name es) (ls.flatMap Line.chars ++ rest) =
      lines? (below earlier name (es ++ ls.map Line.entry)) rest := by
  induction ls generalizing es with
  | nil => simp
  | cons l ls ih =>
    obtain ⟨c, cs, hn, hc⟩ := (hls l List.mem_cons_self).1.cons
    have new : l.name ∉ es.map (·.1) := fun mem =>
      (List.nodup_append.1 hes).2.2 _ mem _ List.mem_cons_self rfl
    have line := line?_setting (hls l List.mem_cons_self) hname new (ls.flatMap Line.chars ++ rest)
    -- the names that are still to come differ from this one too
    have nodup : ((es ++ [l.entry]).map (·.1) ++ ls.map (·.name)).Nodup := by
      simpa [Line.entry] using hes
    have next := ih (fun k hk => hls k (List.mem_cons_of_mem _ hk)) nodup
    have text : l.chars = c :: (cs ++ ' ' :: '=' :: ' ' :: (l.text.toList ++ ['\n'])) := by
      rw [Line.chars, hn, List.cons_append]
    rw [List.flatMap_cons, List.append_assoc]
    rw [text, List.cons_append] at line ⊢
    rw [lines?_of_line? (isBlank_of_isNameChar hc) line (by simp; omega), next]
    simp

/-- A section, as it is written. -/
theorem lines?_section (bare : Bare name) {p : Progress} (hname : name ∉ p.entries.map (·.1))
    {ls : List Line} (hls : ∀ l ∈ ls, l.Sound) (nodup : (ls.map (·.name)).Nodup)
    (rest : List Char) :
    lines? p ((Settings.sectionText name (ls.map fun l => (l.name, l.text))).toList ++ rest) =
      lines? (below p.entries name (ls.map Line.entry)) rest := by
  have text : (Settings.sectionText name (ls.map fun l => (l.name, l.text))).toList ++ rest =
      '[' :: (name.toList ++ ']' :: '\n' :: (ls.flatMap Line.chars ++ rest)) := by
    have line (l : Line) : (l.name ++ " = " ++ l.text ++ "\n").toList = l.chars := by
      simp [Line.chars]
    rw [Settings.sectionText, List.map_map]
    simp only [String.toList_append, String.toList_join, List.flatMap_map, Function.comp_apply, line]
    simp
  rw [text, lines?_of_line? rfl (line?_header bare hname _) (by simp; omega),
    lines?_settings hname hls (by simpa using nodup)]
  rfl

end Toml

/-! ### Settings -/

namespace Settings

open Toml

/-- The lines of the section for the run. -/
def runtimeLines (s : Settings) : List Line :=
  ⟨"max_call_depth", toString s.maxCallDepth, .int s.maxCallDepth⟩ ::
    (s.home.elim [] fun path => [⟨"echoc_home", quote path, .str path⟩]) ++
      [⟨"search_paths", listText s.searchPaths, .list (s.searchPaths.map .str)⟩]

/-- The lines of the section for the log. -/
def logLines (s : Settings) : List Line := [⟨"level", quote s.logLevel, .str s.logLevel⟩]

/-- The settings can be written, and all their texts stand for themselves. -/
structure Writable (s : Settings) : Prop where
  depth : 1 ≤ s.maxCallDepth ∧ s.maxCallDepth ≤ maxInt
  home : ∀ path ∈ s.home, Simple path.toList
  searchPaths : ∀ path ∈ s.searchPaths, Simple path.toList
  logLevel : Simple s.logLevel.toList

/-- The section of a line's values. -/
def values (ls : List Line) : Datum := .table (ls.map fun l => (l.name, l.value))

/-- The text with both sections. -/
def text (s : Settings) : String :=
  sectionText "runtime" (s.runtimeLines.map fun l => (l.name, l.text)) ++ "\n" ++
    sectionText "log" (s.logLines.map fun l => (l.name, l.text))

variable {s : Settings}

theorem toToml?_eq (h : s.Writable) : s.toToml? = .ok s.text := by
  rw [toToml?, if_neg (by have := h.depth.2; omega)]
  cases hs : s.home <;> simp only [text, runtimeLines, logLines, hs] <;> rfl

theorem reads_quote {t : String} (ht : Simple t.toList) : Reads (quote t).toList (.str t) := by
  intro rest
  have value := valueWithin?_quote ht nestingLimit ('\n' :: rest) (by simp)
  rw [quote_of_simple ht] at value ⊢
  exact value

theorem sound_runtimeLines (h : s.Writable) : ∀ l ∈ s.runtimeLines, l.Sound := by
  intro l hl
  simp only [runtimeLines, List.mem_append, List.mem_cons, List.not_mem_nil, or_false] at hl
  rcases hl with (rfl | hl) | rfl
  · exact ⟨(by decide : Bare "max_call_depth"), reads_number h.depth.1 h.depth.2⟩
  · cases hs : s.home with
    | none =>
      rw [hs] at hl
      exact absurd hl List.not_mem_nil
    | some path =>
      rw [hs] at hl
      obtain rfl := List.mem_singleton.1 hl
      exact ⟨(by decide : Bare "echoc_home"), reads_quote (h.home path hs)⟩
  · exact ⟨(by decide : Bare "search_paths"), reads_listText h.searchPaths⟩

theorem sound_logLines (h : s.Writable) : ∀ l ∈ s.logLines, l.Sound := by
  intro l hl
  obtain rfl := List.mem_singleton.1 hl
  exact ⟨(by decide : Bare "level"), reads_quote h.logLevel⟩

theorem nodup_runtimeLines : (s.runtimeLines.map (·.name)).Nodup := by
  rw [runtimeLines]
  cases s.home with
  | none => exact (by decide : ["max_call_depth", "search_paths"].Nodup)
  | some _ => exact (by decide : ["max_call_depth", "echoc_home", "search_paths"].Nodup)

theorem data_entries (ls : List Line) :
    Entries.data (ls.map Line.entry) = ls.map fun l => (l.name, l.value) := by
  induction ls with
  | nil => rfl
  | cons l ls ih =>
    rw [List.map_cons, List.map_cons, ← ih]
    rfl

/-- Both sections are read to the values they were written from. -/
theorem ofText?_text (h : s.Writable) :
    ofText? s.text = some [("runtime", values s.runtimeLines), ("log", values s.logLines)] := by
  have start : s.text.toList.head? = some '[' := by
    simp [text, sectionText]
  have runtime := lines?_section (by decide : Bare "runtime") (p := {}) List.not_mem_nil
    (sound_runtimeLines h) nodup_runtimeLines
    ('\n' :: (sectionText "log" (s.logLines.map fun l => (l.name, l.text))).toList)
  -- the empty line between the two sections
  have blank (p : Progress) (rest : List Char) : lines? p ('\n' :: rest) = lines? p rest :=
    lines?_of_line? rfl rfl (Nat.le_refl _)
  have log := lines?_section (by decide : Bare "log")
    (p := below [] "runtime" (s.runtimeLines.map Line.entry))
    (by exact (by decide : "log" ∉ ["runtime"])) (sound_logLines h) (List.nodup_singleton "level") []
  have text : s.text.toList =
      (sectionText "runtime" (s.runtimeLines.map fun l => (l.name, l.text))).toList ++
        '\n' :: (sectionText "log" (s.logLines.map fun l => (l.name, l.text))).toList := by
    simp [text]
  have done (p : Progress) : lines? p [] = some p := by
    rw [lines?]
    rfl
  rw [List.append_nil, done] at log
  rw [ofText?, start]
  simp only [Option.some.injEq, show ('[' = '\ufeff') = False from by decide, if_false]
  rw [text, runtime, blank, log]
  show some [(_, Datum.table (Entries.data _)), (_, Datum.table (Entries.data _))] = _
  rw [data_entries, data_entries]
  rfl

/-- A name alone is a place. -/
theorem ofText_name {name : String} (hne : name.toList.isEmpty = false)
    (all : name.toList.all Place.isNameChar = true) : Place.ofText name = [.entry name] := by
  have h := List.all_eq_true.1 all
  have word : name.toList.takeWhile Place.isNameChar = name.toList := List.takeWhile_eq_self_iff.2 h
  have behind : name.toList.dropWhile Place.isNameChar = [] := List.dropWhile_eq_nil_iff.2 h
  simp only [Place.ofText, word, behind, hne, Place.steps?, Bool.false_eq_true, if_false,
    String.ofList_toList]

theorem lay_cons {d v : Datum} {name : String} (hp : Place.ofText name = [.entry name])
    (layer : List (String × Datum)) : d.lay ((name, v) :: layer) = (d.set name v).lay layer := by
  show (d.put (Place.ofText name) v).lay layer = _
  rw [hp]
  rfl

theorem toLower_eq_self {name : String} (h : name.toList.map Char.toLower = name.toList) :
    name.toLower = name := by
  rw [← String.toList_inj, String.toLower, String.toList_map, h]

/-- Written settings leave nothing of what is built in. -/
theorem lay_builtIn (s : Settings) :
    builtIn.lay [("runtime", values s.runtimeLines), ("log", values s.logLines)] =
      .table [("runtime", values s.runtimeLines), ("log", values s.logLines)] := by
  have lower : ["runtime", "log", "max_call_depth", "echoc_home", "search_paths", "level"].map
      String.toLower = ["runtime", "log", "max_call_depth", "echoc_home", "search_paths", "level"] := by
    simp only [List.map_cons, List.map_nil]
    repeat rw [toLower_eq_self (by decide)]
  simp only [List.map_cons, List.cons.injEq] at lower
  rw [lay_cons (ofText_name rfl (by decide)), lay_cons (ofText_name rfl (by decide))]
  simp only [values, runtimeLines, logLines, builtIn]
  cases s.home <;> simp [Datum.lay, Datum.set, Datum.merge, Datum.entries, alter, lower]

theorem mapM_text? (ts : List String) : (ts.map Datum.str).mapM Datum.text? = some ts := by
  induction ts with
  | nil => rfl
  | cons t ts ih =>
    rw [List.map_cons, List.mapM_cons, ih]
    rfl

/-- The settings the values of the lines stand for. -/
theorem ofDatum_values (s : Settings) :
    ofDatum (.table [("runtime", values s.runtimeLines), ("log", values s.logLines)]) = .ok s := by
  have runtime : part (.table [("runtime", values s.runtimeLines), ("log", values s.logLines)])
      "runtime" = .ok (values s.runtimeLines) := rfl
  have log : part (.table [("runtime", values s.runtimeLines), ("log", values s.logLines)])
      "log" = .ok (values s.logLines) := rfl
  have depth : setting 512 Datum.count? ((values s.runtimeLines).setting? runtimeNames
      "max_call_depth") = .ok s.maxCallDepth := rfl
  -- a home that is not set has no line, and is read as not set
  have home : setting none (Datum.optional? Datum.text?)
      ((values s.runtimeLines).setting? runtimeNames "echoc_home") = .ok s.home := by
    rw [runtimeLines]
    cases s.home <;> rfl
  have paths : setting [] Datum.texts? ((values s.runtimeLines).setting? runtimeNames
      "search_paths") = .ok s.searchPaths := by
    have found : (values s.runtimeLines).setting? runtimeNames "search_paths" =
        some (.list (s.searchPaths.map .str)) := by
      rw [runtimeLines]
      cases s.home <;> rfl
    rw [found, setting, Datum.texts?, mapM_text?]
    rfl
  have level : setting "warn" Datum.text? ((values s.logLines).setting? logNames "level") =
      .ok s.logLevel := rfl
  simp only [ofDatum, runtime, log, depth, home, paths, level, bind, Except.bind]
  rfl

/-- Settings written to a file with the right name and loaded from it are the same. -/
theorem load_toToml (h : s.Writable) :
    ∃ text, s.toToml? = .ok text ∧ ∀ (files : FileTree) (path : String) (place : List String),
      Path.extension? path = some "toml" → files.find path = .file place text.toUTF8 →
      load files [] { configPath := some path } = .ok s := by
  refine ⟨s.text, toToml?_eq h, fun files path place hpath hfile => ?_⟩
  have found : files.isFile path = true := by rw [FileTree.isFile, hfile]
  have read : files.readText path = .ok s.text := by
    have bytes : String.fromUTF8? s.text.toUTF8 = some s.text := dif_pos s.text.isValidUTF8
    rw [FileTree.readText, hfile]
    simp only [bytes]
  have layer : fileLayer files (some path) =
      .ok [("runtime", values s.runtimeLines), ("log", values s.logLines)] := by
    rw [fileLayer, namedLayer, found, read]
    simp only [hpath]
    show layerOfText s.text = _
    rw [layerOfText, ofText?_text h]
    rfl
  -- the file's settings are laid over the built-in ones, and no variable over them
  have built : ofDatum ((builtIn.lay
      [("runtime", values s.runtimeLines), ("log", values s.logLines)]).lay (variableLayer [])) =
        .ok s := by
    rw [lay_builtIn]
    exact ofDatum_values s
  have whole : (s.withVariables []).withOverrides { configPath := some path } = s := by
    simp [withVariables, withOverrides]
  have deep : s.maxCallDepth ≠ 0 := Nat.ne_of_gt h.depth.1
  simp only [load, Option.orElse_some, layer, bind, Except.bind, built, whole, if_neg deep]
  rfl

/-- Settings with all their fields given, and several directories. -/
theorem load_toToml_twoPaths :
    let s : Settings :=
      { maxCallDepth := 7, home := some "/opt/echo", searchPaths := ["lib", "l'autre é"],
        logLevel := "info" }
    s.Writable ∧ ∃ text, s.toToml? = .ok text ∧
      load ⟨[""], [(["", "echoc.toml"], text.toUTF8)]⟩ [] { configPath := some "echoc.toml" } =
        .ok s := by
  intro s
  have writable : s.Writable := by
    refine ⟨by decide, fun path hp => ?_, ?_, ?_⟩
    · obtain rfl := Option.some.inj hp
      decide
    · exact (by decide : ∀ path ∈ ["lib", "l'autre é"], Simple path.toList)
    · exact (by decide : Simple "info".toList)
  obtain ⟨text, written, loaded⟩ := load_toToml writable
  refine ⟨writable, text, written, loaded _ "echoc.toml" ["", "echoc.toml"] (by decide) ?_⟩
  -- a path without a slash is one name in the working directory
  have pieces : Path.pieces "echoc.toml" '/' = ["echoc.toml"] := by decide
  rw [FileTree.find, pieces]
  simp only [ite_self]
  rfl

end Settings

end Rewind
