/-
Parts of a text.

A position in a text counts characters, and a negative one counts from the end.  A slice moves its
bounds to the nearer end of the text, so there is one for any two bounds; an item stands only at a
position inside.  Where there is an item, it is the slice of that one character, and a text is what two
slices that meet at a bound make together.

* `counted` — a position counted from the front;
* `between` — the characters from one place up to another;
* `slicing` — slices, items and the length of a text, for all positions.
-/
import Rewind.Eval.Engine

namespace Rewind

/-- A position counted from the front; a negative one counts from the end. -/
def counted (length : Nat) (i : Int) : Int := if i < 0 then i + length else i

/-- The place a bound is moved to: the nearer end if it lies outside. -/
def clamped (length : Nat) (i : Int) : Nat := (max 0 (min (length : Int) (counted length i))).toNat

/-- The characters of a text from one place up to another. -/
def between (s : String) (first last : Nat) : String :=
  String.ofList ((s.toList.drop first).take (last - first))

theorem sliceBound_eq_clamped (length : Nat) (i : Int) : sliceBound i length = clamped length i := by
  show min (counted length i).toNat length = clamped length i
  unfold clamped
  omega

theorem ofList_sliceChars (s : String) (a b : Int) :
    String.ofList (sliceChars s.toList a b) =
      between s (clamped s.length a) (clamped s.length b) := by
  rw [sliceChars, between, sliceBound_eq_clamped, sliceBound_eq_clamped, String.length_toList,
    List.drop_take]

/-- A place inside the text. -/
theorem resolveIndex_of_inside {length : Nat} {i : Int} (h : -length ≤ i ∧ i < length) :
    resolveIndex i length = some (clamped length i) ∧ clamped length i < length := by
  have place : clamped length i = (counted length i).toNat ∧ 0 ≤ counted length i ∧
      counted length i < length := by
    unfold clamped counted
    split <;> omega
  unfold resolveIndex
  rw [place.1]
  refine ⟨if_pos place.2, by omega⟩

theorem resolveIndex_of_outside {length : Nat} {i : Int} (h : ¬(-length ≤ i ∧ i < length)) :
    resolveIndex i length = none := by
  unfold resolveIndex
  refine if_neg fun inside => h ?_
  split at inside <;> omega

theorem between_of_le (s : String) {first last : Nat} (h : last ≤ first) : between s first last = "" := by
  rw [between, Nat.sub_eq_zero_of_le h, List.take_zero, String.ofList_nil]

/-- Two parts that meet. -/
theorem between_append (s : String) (place : Nat) :
    between s 0 place ++ between s place s.length = s := by
  have rest : (s.toList.drop place).length ≤ s.length - place := by
    simp only [List.length_drop, String.length_toList, Nat.le_refl]
  rw [between, between, ← String.ofList_append, List.drop_zero, Nat.sub_zero,
    List.take_of_length_le rest, List.take_append_drop, String.ofList_toList]

/-- One character. -/
theorem between_succ (s : String) {place : Nat} {c : Char} (h : s.toList[place]? = some c) :
    between s place (place + 1) = String.singleton c := by
  obtain ⟨hlt, hc⟩ := List.getElem?_eq_some_iff.1 h
  rw [between, Nat.add_sub_cancel_left, List.drop_eq_getElem_cons hlt, hc]
  rfl

namespace Eval

variable (j : Jobs) (n : Nat) (receiver : Option Value) (site : Token) (m : Machine) (s : String)

theorem slice_run (a b : Int) :
    callNative j n .slice receiver { positional := [.str s, .int a, .int b] } site m =
      .ok (.fresh (.str (between s (clamped s.length a) (clamped s.length b)))) m := by
  rw [← ofList_sliceChars]
  rfl

theorem slice_run_to_end (a : Int) :
    callNative j n .slice receiver { positional := [.str s, .int a] } site m =
      .ok (.fresh (.str (between s (clamped s.length a) s.length))) m := by
  have last : clamped s.length s.length = s.length := by
    unfold clamped counted
    split <;> omega
  have run := ofList_sliceChars s a s.length
  rw [last] at run
  rw [← run, ← String.length_toList]
  rfl

theorem add_texts (op : Token) (x y : String) :
    add j op (.fresh (.str x)) (.fresh (.str y)) m = .ok (.fresh (.str (x ++ y))) m := rfl

variable {s} {target : Held}

theorem itemOf_of_inside (w : World) (ht : target.value = .str s) {i : Int} {c : Char}
    (hi : -s.length ≤ i ∧ i < s.length) (hc : s.toList[clamped s.length i]? = some c) :
    itemOf w target (.int i) = .ok (.fresh (.str (String.singleton c))) := by
  unfold itemOf
  simp only [ht, String.length_toList, (resolveIndex_of_inside hi).1, Option.bind_some, hc]

theorem itemOf_of_outside (w : World) (ht : target.value = .str s) {i : Int}
    (hi : ¬(-s.length ≤ i ∧ i < s.length)) :
    itemOf w target (.int i) = .error (.stringIndexOutOfBounds i s.length) := by
  unfold itemOf
  simp only [ht, String.length_toList, resolveIndex_of_outside hi, Option.bind_none]

theorem readItem_run (idx : Value) :
    readItem target idx site m = orComplain site (itemOf m.world target idx) m := rfl

/-- The slices of a text for all bounds, its items for all positions, and its length. -/
theorem slicing (op : Token) (ht : target.value = .str s) :
    let slice (bounds : List Value) : EStateM.Result Interrupt Machine Held :=
      callNative j n .slice receiver { positional := .str s :: bounds } site m
    (∀ a b, slice [.int a, .int b] =
        .ok (.fresh (.str (between s (clamped s.length a) (clamped s.length b)))) m) ∧
      (∀ a, slice [.int a] = .ok (.fresh (.str (between s (clamped s.length a) s.length))) m) ∧
      (∀ a b, clamped s.length b ≤ clamped s.length a →
        between s (clamped s.length a) (clamped s.length b) = "") ∧
      (∀ k, ∃ front back, slice [.int 0, .int k] = .ok front m ∧ slice [.int k] = .ok back m ∧
        add j op front back m = .ok (.fresh (.str s)) m) ∧
      (∀ i, -(s.length : Int) ≤ i ∧ i < s.length → readItem target (.int i) site m =
        slice [.int (counted s.length i), .int (counted s.length i + 1)]) ∧
      (∀ i, ¬(-(s.length : Int) ≤ i ∧ i < s.length) → readItem target (.int i) site m =
        complain (.stringIndexOutOfBounds i s.length) site m) ∧
      callNative j n .len receiver { positional := [.str s] } site m =
        .ok (.fresh (.int s.length)) m ∧
      (s.length ≤ maxInt → ∀ i, minInt ≤ i → i ≤ maxInt →
        minInt ≤ counted s.length i ∧ counted s.length i ≤ maxInt) := by
  refine ⟨slice_run j n receiver site m s, slice_run_to_end j n receiver site m s,
    fun a b h => between_of_le s h, fun k => ?_, fun i hi => ?_, fun i hi => ?_, rfl,
    fun hs i hmin hmax => ?_⟩
  · refine ⟨_, _, slice_run j n receiver site m s 0 k, slice_run_to_end j n receiver site m s k, ?_⟩
    have start : clamped s.length 0 = 0 := by
      unfold clamped counted
      omega
    rw [add_texts, start, between_append]
  · obtain ⟨c, hc⟩ : ∃ c, s.toList[clamped s.length i]? = some c :=
      ⟨_, List.getElem?_eq_getElem (by
        rw [String.length_toList]
        exact (resolveIndex_of_inside hi).2)⟩
    -- an index within the text counts from the front as it is counted from the end
    have bounds : clamped s.length (counted s.length i) = clamped s.length i ∧
        clamped s.length (counted s.length i + 1) = clamped s.length i + 1 := by
      unfold clamped counted
      split <;> split <;> omega
    dsimp only
    rw [slice_run, bounds.1, bounds.2, between_succ s hc, readItem_run, itemOf_of_inside _ ht hi hc]
    rfl
  · rw [readItem_run, itemOf_of_outside _ ht hi]
    rfl
  · unfold minInt maxInt at *
    unfold counted
    split <;> omega

/-- Four characters in ten bytes: a bound may lie far outside, and `-1` is the last place. -/
theorem slicing_wide_text :
    (Held.fresh (.str "aé😀語")).value = .str "aé😀語" ∧
    callNative (jobs 8) 8 .slice none { positional := [.str "aé😀語", .int minInt, .int (-1)] }
      default default = .ok (.fresh (.str "aé😀")) default ∧
    readItem (.fresh (.str "aé😀語")) (.int (-1)) default default =
      .ok (.fresh (.str "語")) default := by
  have text : (Held.fresh (.str "aé😀語")).value = .str "aé😀語" := rfl
  obtain ⟨slice, -, -, -, inside, -⟩ := slicing (jobs 8) 8 none default default default text
  have front : between "aé😀語" (clamped 4 minInt) (clamped 4 (-1)) = "aé😀" := by decide
  have last : between "aé😀語" (clamped 4 3) (clamped 4 4) = "語" := by decide
  refine ⟨rfl, (slice minInt (-1)).trans ?_, (inside (-1) (by decide)).trans ((slice 3 4).trans ?_)⟩
  · rw [show String.length _ = 4 from by decide, front]
  · rw [show String.length _ = 4 from by decide, last]

end Eval

end Rewind
