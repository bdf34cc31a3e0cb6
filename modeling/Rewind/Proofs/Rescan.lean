/-
Scanning again at a saved position.

A token is read off the text at its start and nothing else: scanning once more from there gives the
same token and the same text behind it.  Every position a cursor saves is the start of a token it
stood on, so coming back to a saved position never fails.

* `Source.Reads` — a text is what a source holds from a position on;
* `Source.Holds`, `Source.Marks` — a token of a source with the text behind it, and its start;
* `holds_of_scan` — a token read off the text of a source is a token of that source;
* `Cursor.Sound` — the cursor stands on a token of its source; every move keeps this;
* `Cursor.rewind_eq` — a rewind to the start of a token ends on that token.
-/
import Rewind.Cursor

namespace Rewind

/-! ### Positions and bytes -/

namespace Position

@[simp] theorem step_source (p : Position) (c : Char) : (p.step c).source = p.source := by
  unfold step
  split <;> rfl

@[simp] theorem step_offset (p : Position) (c : Char) :
    (p.step c).offset = p.offset + c.utf8Size := by
  unfold step
  split <;> rfl

theorem line_le_step (p : Position) (c : Char) : p.line ≤ (p.step c).line := by
  unfold step
  split
  · exact Nat.le_succ _
  · exact Nat.le_refl _

@[simp] theorem after_source (p : Position) (cs : List Char) : (p.after cs).source = p.source := by
  induction cs generalizing p with
  | nil => rfl
  | cons c cs ih => rw [after_cons, ih, step_source]

theorem after_offset (p : Position) (cs : List Char) :
    (p.after cs).offset = p.offset + byteLength cs := by
  induction cs generalizing p with
  | nil => rfl
  | cons c cs ih => rw [after_cons, ih, step_offset, byteLength, Nat.add_assoc]

theorem line_le_after (p : Position) (cs : List Char) : p.line ≤ (p.after cs).line := by
  induction cs generalizing p with
  | nil => exact Nat.le_refl _
  | cons c cs ih => exact Nat.le_trans (p.line_le_step c) (ih (p.step c))

end Position

/-! ### What one token takes -/

/-- Reading the text `cs` at `p` comes to `q` with the text `ds` left. -/
def Takes (p : Position) (cs : List Char) (q : Position) (ds : List Char) : Prop :=
  ∃ taken, cs = taken ++ ds ∧ q = p.after taken

namespace Takes

theorem refl (p : Position) (cs : List Char) : Takes p cs p cs := ⟨[], rfl, rfl⟩

theorem of_after {p q : Position} (taken : List Char) {cs ds : List Char}
    (h : Takes (p.after taken) cs q ds) : Takes p (taken ++ cs) q ds := by
  obtain ⟨more, rfl, rfl⟩ := h
  exact ⟨taken ++ more, by simp, by rw [Position.after_append]⟩

theorem of_step {p q : Position} {c : Char} {cs ds : List Char} (h : Takes (p.step c) cs q ds) :
    Takes p (c :: cs) q ds := of_after [c] h

theorem trans {p q r : Position} {cs ds es : List Char} (h : Takes p cs q ds)
    (h' : Takes q ds r es) : Takes p cs r es := by
  obtain ⟨taken, rfl, rfl⟩ := h
  exact of_after taken h'

end Takes

theorem takes_skipGap {g : Gap} {p q : Position} {cs ds : List Char}
    (h : skipGap g p cs = .ok (q, ds)) : Takes p cs q ds := by
  fun_induction skipGap g p cs with
  | case1 | case6 | case10 =>
    obtain ⟨rfl, rfl⟩ := Prod.mk.inj (Except.ok.inj h)
    exact .refl _ _
  | case2 | case7 => contradiction
  | case3 _ _ _ _ _ ih | case9 _ _ _ _ _ ih | case11 _ _ ih | case13 _ _ _ _ _ ih =>
    exact (ih h).of_step
  | case4 _ _ _ _ ih | case8 _ _ _ ih => exact (ih h).of_after ['\'', '\'', '\'']
  | case5 _ _ _ _ ih | case12 _ _ ih => exact (ih h).of_after ['-', '-']

/-- Behind blanks and comments there are no more of them. -/
theorem skipGap_again {g : Gap} {p q : Position} {cs ds : List Char}
    (h : skipGap g p cs = .ok (q, ds)) : skipGap .blank q ds = .ok (q, ds) := by
  fun_induction skipGap g p cs <;> grind [skipGap]

theorem takes_quoted {quote : Char} {opened p : Position} {cs read : List Char} {l : Lexeme}
    (h : quoted quote opened p cs read = .ok l) : Takes p cs l.stop l.rest := by
  fun_induction quoted quote opened p cs read with
  | case1 | case3 => contradiction
  | case2 =>
    obtain rfl := Except.ok.inj h
    exact (Takes.refl _ _).of_step
  | case4 _ _ _ _ _ ih => exact (ih h).of_step.of_step
  | case5 _ _ _ _ _ _ ih => exact (ih h).of_step

theorem takes_fenced {opened p : Position} {cs read : List Char} {l : Lexeme}
    (h : fenced opened p cs read = .ok l) : Takes p cs l.stop l.rest := by
  fun_induction fenced opened p cs read with
  | case1 => contradiction
  | case2 p c cs read hf =>
    obtain rfl := Except.ok.inj h
    obtain ⟨behind, hb⟩ := List.isPrefixOf_iff_prefix.1 hf
    have hd : cs.drop 2 = behind := by
      obtain rfl : cs = _ := (List.cons.inj hb).2.symm
      rfl
    exact ⟨fence, by rw [hd, hb], rfl⟩
  | case3 _ _ _ _ _ ih => exact (ih h).of_step

theorem takes_number {p : Position} {cs : List Char} {l : Lexeme} (h : number p cs = .ok l) :
    Takes p cs l.stop l.rest := by
  have hcs : cs.takeWhile Char.isDigit ++ cs.dropWhile Char.isDigit = cs :=
    List.takeWhile_append_dropWhile
  have integer {l : Lexeme}
      (h : number.integer p (cs.takeWhile Char.isDigit) (cs.dropWhile Char.isDigit) = .ok l) :
      Takes p cs l.stop l.rest := by
    unfold number.integer at h
    -- a digit behind the dot makes it a number with a fraction; otherwise the dot is another
    -- token's
    split at h
    · obtain rfl := Except.ok.inj h
      exact ⟨_, hcs.symm, rfl⟩
    · contradiction
  simp only [number] at h
  split at h
  · rename_i d rest hb
    split at h
    · obtain rfl := Except.ok.inj h
      refine ⟨_, ?_, rfl⟩
      rw [hb] at hcs
      rw [← hcs, List.append_assoc, List.cons_append, List.cons_append,
        List.takeWhile_append_dropWhile, hcs, hcs]
    · exact integer h
  · exact integer h

theorem takes_word (p : Position) (cs : List Char) :
    Takes p cs (word p cs).stop (word p cs).rest :=
  ⟨cs.takeWhile Text.isIdentPart, List.takeWhile_append_dropWhile.symm, rfl⟩

theorem takes_symbol {p : Position} {c : Char} {cs : List Char} {l : Lexeme}
    (h : symbol p c cs = .ok l) : Takes p (c :: cs) l.stop l.rest := by
  unfold symbol at h
  split at h
  · obtain rfl := Except.ok.inj h
    exact ⟨c :: cs.take 1, by rw [List.cons_append, List.take_append_drop], rfl⟩
  · split at h
    · obtain rfl := Except.ok.inj h
      exact (Takes.refl _ _).of_step
    · contradiction

theorem takes_lexeme {p : Position} {c : Char} {cs : List Char} {l : Lexeme}
    (h : lexeme p c cs = .ok l) : Takes p (c :: cs) l.stop l.rest := by
  unfold lexeme at h
  split at h
  · rename_i hf
    obtain ⟨behind, hb⟩ := List.isPrefixOf_iff_prefix.1 hf
    have hd : cs.drop 2 = behind := by
      obtain rfl : cs = _ := (List.cons.inj hb).2.symm
      rfl
    rw [← hb]
    exact (hd ▸ takes_fenced h).of_after fence
  · split at h
    · exact (takes_quoted h).of_step
    · split at h
      · exact takes_number h
      · split at h
        · obtain rfl := Except.ok.inj h
          exact takes_word p (c :: cs)
        · exact takes_symbol h

/-- A token with the text behind it, split off the text it was read from; read again from its own
start it is the same. -/
theorem takes_scan {p : Position} {cs rest : List Char} {t : Token}
    (h : scan p cs = .ok (t, rest)) :
    ∃ ds, Takes p cs t.start ds ∧ Takes t.start ds t.stop rest ∧
      scan t.start ds = .ok (t, rest) := by
  simp only [scan, bind, Except.bind, pure, Except.pure] at h
  split at h
  · contradiction
  · rename_i r hr
    obtain ⟨q, ds⟩ := r
    -- from the token's own start the scanner finds it again, with nothing to pass over
    have hq : scan q ds = .ok (t, rest) := by
      simp only [scan, bind, Except.bind, pure, Except.pure, skipGap_again hr]
      exact h
    have hs : t.start = q ∧ Takes q ds t.stop rest := by
      split at h
      · obtain ⟨rfl, rfl⟩ := Prod.mk.inj (Except.ok.inj h)
        rename_i e
        obtain ⟨rfl, rfl⟩ := Prod.mk.inj e
        exact ⟨rfl, .refl _ _⟩
      · split at h
        · contradiction
        · rename_i e _ l hl
          obtain ⟨rfl, rfl⟩ := Prod.mk.inj e
          obtain ⟨rfl, rfl⟩ := Prod.mk.inj (Except.ok.inj h)
          exact ⟨rfl, takes_lexeme hl⟩
    refine ⟨ds, ?_, ?_, ?_⟩
    · rw [hs.1]; exact takes_skipGap hr
    · rw [hs.1]; exact hs.2
    · rw [hs.1]; exact hq

theorem kind_fenced {opened p : Position} {cs read : List Char} {l : Lexeme}
    (h : fenced opened p cs read = .ok l) : l.kind = .str := by
  fun_induction fenced opened p cs read <;> grind

theorem kind_quoted {quote : Char} {opened p : Position} {cs read : List Char} {l : Lexeme}
    (h : quoted quote opened p cs read = .ok l) : l.kind = .str := by
  fun_induction quoted quote opened p cs read <;> grind

theorem kind_number {p : Position} {cs : List Char} {l : Lexeme} (h : number p cs = .ok l) :
    l.kind ≠ .eof := by
  have integer {whole behind : List Char} (h : number.integer p whole behind = .ok l) :
      l.kind ≠ .eof := by
    unfold number.integer at h
    split at h
    · obtain rfl := Except.ok.inj h
      nofun
    · contradiction
  unfold number at h
  dsimp only at h
  split at h
  · split at h
    · obtain rfl := Except.ok.inj h
      nofun
    · exact integer h
  · exact integer h

theorem kind_word (p : Position) (cs : List Char) : (word p cs).kind ≠ .eof := by
  unfold word
  dsimp only
  cases hk : TokenKind.keyword? (String.ofList (cs.takeWhile Text.isIdentPart)) with
  | none => nofun
  | some k =>
    have : k ∈ TokenKind.keywords := List.mem_of_find?_eq_some hk
    rintro rfl
    exact absurd this (by decide)

theorem symbolPair_ne_eof (c d : Char) : symbolPair? c d ≠ some .eof := by
  unfold symbolPair?
  split <;> decide

theorem symbolChar_ne_eof (c : Char) : symbolChar? c ≠ some .eof := by
  unfold symbolChar?
  split <;> decide

theorem kind_symbol {p : Position} {c : Char} {cs : List Char} {l : Lexeme}
    (h : symbol p c cs = .ok l) : l.kind ≠ .eof := by
  unfold symbol at h
  split at h
  · rename_i hk
    obtain rfl := Except.ok.inj h
    obtain ⟨d, -, hd⟩ := Option.bind_eq_some_iff.1 hk
    rintro rfl
    exact symbolPair_ne_eof c d hd
  · split at h
    · rename_i hk
      obtain rfl := Except.ok.inj h
      rintro rfl
      exact symbolChar_ne_eof c hk
    · cases h

theorem kind_lexeme {p : Position} {c : Char} {cs : List Char} {l : Lexeme}
    (h : lexeme p c cs = .ok l) : l.kind ≠ .eof := by
  unfold lexeme at h
  split at h
  · rw [kind_fenced h]
    nofun
  split at h
  · rw [kind_quoted h]
    nofun
  split at h
  · exact kind_number h
  split at h
  · obtain rfl := Except.ok.inj h
    exact kind_word _ _
  · exact kind_symbol h

/-- Behind the end of the text there is nothing but the end of the text. -/
theorem scan_behind_eof {p : Position} {cs rest : List Char} {t : Token}
    (h : scan p cs = .ok (t, rest)) (ht : t.kind = .eof) : scan t.stop rest = .ok (t, rest) := by
  simp only [scan, bind, Except.bind, pure, Except.pure] at h
  split at h
  · contradiction
  · split at h
    · obtain ⟨rfl, rfl⟩ := Prod.mk.inj (Except.ok.inj h)
      simp [scan, skipGap, bind, Except.bind, pure, Except.pure]
    · split at h
      · contradiction
      · rename_i l hl
        obtain ⟨rfl, rfl⟩ := Prod.mk.inj (Except.ok.inj h)
        exact absurd ht (kind_lexeme hl)

/-! ### The text of a source -/

namespace Source

/-- The text `cs` is what the source holds from `p` on. -/
def Reads (s : Source) (p : Position) (cs : List Char) : Prop := Takes s.origin s.text p cs

/-- The token `t` stands in the source, with the text `rest` behind it. -/
structure Holds (s : Source) (t : Token) (rest : List Char) : Prop where
  scans : scan t.start (s.rest t.start) = .ok (t, rest)
  reads : s.Reads t.start (s.rest t.start)
  behind : s.Reads t.stop rest

/-- The position `p` is the start of a token of the source. -/
def Marks (s : Source) (p : Position) : Prop := ∃ t rest, s.Holds t rest ∧ t.start = p

theorem reads_origin (s : Source) : s.Reads s.origin s.text := .refl _ _

namespace Reads

variable {s : Source} {p : Position} {cs : List Char}

theorem source (h : s.Reads p cs) : p.source = s.id := by
  obtain ⟨taken, -, rfl⟩ := h
  exact Position.after_source _ _

theorem line_pos (h : s.Reads p cs) : 0 < p.line := by
  obtain ⟨taken, -, rfl⟩ := h
  exact Position.line_le_after s.origin taken

theorem rest (h : s.Reads p cs) : s.rest p = cs := by
  obtain ⟨taken, ht, rfl⟩ := h
  have ho : (s.origin.after taken).offset = byteLength taken := by
    rw [Position.after_offset]
    exact Nat.zero_add _
  rw [Source.rest, ho, ht, dropBytes_append]

end Reads

/-- A token read off the text of a source stands in that source. -/
theorem holds_of_scan {s : Source} {p : Position} {cs rest : List Char} {t : Token}
    (h : s.Reads p cs) (hs : scan p cs = .ok (t, rest)) : s.Holds t rest := by
  obtain ⟨ds, hgap, htoken, hagain⟩ := takes_scan hs
  have hd : s.Reads t.start ds := Takes.trans h hgap
  refine ⟨?_, ?_, Takes.trans hd htoken⟩
  · rw [hd.rest]; exact hagain
  · rw [hd.rest]; exact hd

end Source

/-! ### Cursors -/

namespace Cursor

/-- The cursor stands on a token of its source. -/
def Sound (c : Cursor) : Prop := c.source.Holds c.current c.behind

theorem Sound.capture {c : Cursor} (h : c.Sound) : c.source.Marks c.capture := ⟨_, _, h, rfl⟩

theorem sound_ofSource {s : Source} {c : Cursor} (h : ofSource s = .ok c) :
    c.Sound ∧ c.source = s := by
  unfold ofSource at h
  cases hs : scan s.origin s.text with
  | error fault => rw [hs] at h; contradiction
  | ok r =>
    rw [hs] at h
    obtain rfl := Except.ok.inj h
    exact ⟨Source.holds_of_scan s.reads_origin hs, rfl⟩

/-- A cursor set on a token of its source by a rewind. -/
theorem rewind_eq {c : Cursor} {t : Token} {rest : List Char} (h : c.source.Holds t rest) :
    c.rewind t.start = .ok ⟨c.source, t, rest, 0⟩ := by
  unfold rewind scanAt
  rw [if_neg (not_not_intro h.reads.source), h.scans]

theorem at?_eq {s : Source} {t : Token} {rest : List Char} (h : s.Holds t rest) :
    at? s t.start = .ok ⟨s, t, rest, 0⟩ := by
  unfold at? scanAt
  rw [if_neg (not_not_intro h.reads.source), h.scans]

variable {c d : Cursor}

theorem sound_rewind {p : Position} (hp : c.source.Marks p) (h : c.rewind p = .ok d) :
    d.Sound ∧ d.source = c.source := by
  obtain ⟨t, rest, ht, rfl⟩ := hp
  obtain rfl := Except.ok.inj ((rewind_eq ht).symm.trans h)
  exact ⟨ht, rfl⟩

theorem sound_at? {s : Source} {p : Position} (hp : s.Marks p) (h : at? s p = .ok d) :
    d.Sound ∧ d.source = s := by
  obtain ⟨t, rest, ht, rfl⟩ := hp
  obtain rfl := Except.ok.inj ((at?_eq ht).symm.trans h)
  exact ⟨ht, rfl⟩

theorem sound_bump (hc : c.Sound) (h : c.bump = .ok d) : d.Sound ∧ d.source = c.source := by
  unfold bump at h
  split at h
  · contradiction
  · rename_i t behind hs
    obtain rfl := Except.ok.inj h
    exact ⟨Source.holds_of_scan hc.behind hs, rfl⟩

theorem sound_advance {k : TokenKind} (hc : c.Sound) (h : c.advance k = .ok d) :
    d.Sound ∧ d.source = c.source := by
  unfold advance at h
  split at h
  · exact sound_bump hc h
  · contradiction

theorem sound_skipColons (hc : c.Sound) (h : c.skipColons = .ok d) :
    d.Sound ∧ d.source = c.source := by
  fun_induction skipColons c with
  | case1 => contradiction
  | case2 _ _ _ hb =>
    obtain rfl := Except.ok.inj h
    exact sound_bump hc hb
  | case3 _ _ _ hb _ _ ih =>
    obtain ⟨hs, he⟩ := sound_bump hc hb
    exact he ▸ ih hs h
  | case4 =>
    obtain rfl := Except.ok.inj h
    exact ⟨hc, rfl⟩

theorem sound_skipBody {column depth : Nat} (hc : c.Sound) (h : c.skipBody column depth = .ok d) :
    d.Sound ∧ d.source = c.source := by
  fun_induction skipBody column depth c with
  | case1 | case2 =>
    obtain rfl := Except.ok.inj h
    exact ⟨hc, rfl⟩
  | case3 => contradiction
  | case4 _ _ _ _ _ hb _ =>
    obtain rfl := Except.ok.inj h
    exact sound_bump hc hb
  | case5 _ _ _ _ _ _ hb _ _ ih =>
    obtain ⟨hs, he⟩ := sound_bump hc hb
    exact he ▸ ih hs h

/-- No colon is left behind the colons passed. -/
theorem kind_skipColons (h : c.skipColons = .ok d) : d.kind ≠ .colon := by
  fun_induction skipColons c with
  | case1 => contradiction
  | case2 _ _ _ _ he =>
    obtain rfl := Except.ok.inj h
    simp [he]
  | case3 _ _ _ _ _ _ ih => exact ih h
  | case4 _ hc =>
    obtain rfl := Except.ok.inj h
    exact hc

theorem skipColons_eq_self (h : c.kind ≠ .colon) : c.skipColons = .ok c := by
  rw [skipColons, if_neg h]

end Cursor

end Rewind
