import Mathlib.Tactic
import Destack.Text.Numeral

/-!
# Numerals and what they denote

The digits of a number are read back as the number if it is in range, and otherwise they are too large
(`readUp_toDigits`). Digits behind a minus sign are counted downward, which is counting upward in the mirrored range
(`readDown_eq_mirrored`). So an integer in decimal, with its sign, is read back as itself if it is in range, and is not
read at all if it is not (`readNumeral_repr_eq_ok_iff`).
-/

namespace Destack.Text

variable {radix : Nat} {range : IntRange}

/-! ## Digits -/

theorem digit?_digitChar {d : Nat} (hd : d < radix) (hradix : radix ≤ 16) :
    digit? radix (Nat.digitChar d) = some d := by
  have hd16 : d < 16 := by omega
  interval_cases d <;> simp [digit?, Nat.digitChar] <;> omega

theorem isBlank_of_isDigit {c : Char} (hc : c.isDigit) : isBlank c = false := by
  obtain ⟨hlo, hhi⟩ : 48 ≤ c.toNat ∧ c.toNat ≤ 57 := Char.isDigit_iff_toNat.1 hc
  rw [isBlank, List.any_eq_false]
  intro r hr
  have hout : r.2 < 48 ∨ 57 < r.1 := by
    revert r
    decide
  simp only [Bool.and_eq_true, decide_eq_true_eq]
  omega

theorem dropWhile_isBlank_eq_self {cs : List Char} (h : ∀ c ∈ cs, isBlank c = false) : cs.dropWhile isBlank = cs := by
  cases cs with
  | nil => rfl
  | cons c cs => exact List.dropWhile_cons_of_neg (by simp [h c List.mem_cons_self])

theorem trimBlanks_eq_self {cs : List Char} (h : ∀ c ∈ cs, isBlank c = false) : trimBlanks cs = cs := by
  have hreverse : ∀ c ∈ cs.reverse, isBlank c = false := fun c hc => h c (List.mem_reverse.1 hc)
  rw [trimBlanks, dropWhile_isBlank_eq_self h, dropWhile_isBlank_eq_self hreverse, List.reverse_reverse]

/-! ## Counting upward and downward -/

theorem readUp_append (value : Int) (cs ds : List Char) :
    readUp radix range value (cs ++ ds) = (readUp radix range value cs).bind (readUp radix range · ds) := by
  induction cs generalizing value with
  | nil => rfl
  | cons c cs ih =>
    rw [List.cons_append, readUp, readUp]
    cases digit? radix c with
    | none => rfl
    | some d =>
      dsimp only
      split
      · exact ih _
      · rfl

theorem readUp_singleton {value : Int} {c : Char} {d : Nat} (hd : digit? radix c = some d) :
    readUp radix range value [c] =
      if value * radix + d ≤ range.hi then .ok (value * radix + d) else .error .tooLarge := by
  simp only [readUp, hd]

/-- The digits of a number are read as the number, or are too large if the number is. -/
theorem readUp_toDigits (hradix : 1 < radix) (hradix' : radix ≤ 16) (n : Nat) :
    readUp radix range 0 (Nat.toDigits radix n) = if n ≤ range.hi then .ok (n : Int) else .error .tooLarge := by
  induction n using Nat.strong_induction_on with
  | _ n ih =>
    by_cases hn : n < radix
    · rw [Nat.toDigits_of_lt_base hn, readUp_singleton (digit?_digitChar hn hradix')]
      simp
    · have hlast : n % radix < radix := Nat.mod_lt n (by omega)
      have hsplit : ((n / radix : Nat) : Int) * radix + (n % radix : Nat) = n := by
        exact_mod_cast Nat.div_add_mod' n radix
      rw [Nat.toDigits_of_base_le hradix (by omega), readUp_append, ih _ (Nat.div_lt_self (by omega) hradix)]
      split
      · rw [Except.bind, readUp_singleton (digit?_digitChar hlast hradix'), hsplit]
      · -- The digits in front are too large already, and the whole number is no smaller.
        next hlarge =>
        have hle : n / radix ≤ n := Nat.div_le_self n radix
        rw [Except.bind, if_neg (by omega)]

def IntRange.mirrored (range : IntRange) : IntRange :=
  ⟨-range.hi, -range.lo⟩

def NumeralError.mirrored : NumeralError → NumeralError
  | .tooLarge => .tooSmall
  | .tooSmall => .tooLarge
  | e => e

/-- Counting downward is counting upward on the other side of zero. -/
theorem readDown_eq_mirrored (value : Int) (cs : List Char) :
    readDown radix range value cs =
      ((readUp radix range.mirrored (-value) cs).map (- ·)).mapError NumeralError.mirrored := by
  induction cs generalizing value with
  | nil => simp [readDown, readUp, Except.map, Except.mapError]
  | cons c cs ih =>
    rw [readDown, readUp]
    cases digit? radix c with
    | none => rfl
    | some d =>
      have hnext : -value * radix + d = -(value * radix - d) := by ring
      have hrange : -(value * radix - d) ≤ range.mirrored.hi ↔ range.lo ≤ value * radix - d := neg_le_neg_iff
      simp only [hnext, hrange]
      split
      · exact ih _
      · rfl

/-! ## Signs -/

theorem readNumeral_plus {cs : List Char} (hcs : cs ≠ []) :
    readNumeral radix range ('+' :: cs) = readUp radix range 0 cs := by
  obtain ⟨c, cs, rfl⟩ := List.exists_cons_of_ne_nil hcs
  rfl

theorem readNumeral_minus {cs : List Char} (hcs : cs ≠ []) :
    readNumeral radix range ('-' :: cs) = if range.lo < 0 then readDown radix range 0 cs else .error .invalidDigit := by
  obtain ⟨c, cs, rfl⟩ := List.exists_cons_of_ne_nil hcs
  rfl

theorem readNumeral_unsigned {c : Char} {cs : List Char} (hplus : c ≠ '+') (hminus : c ≠ '-') :
    readNumeral radix range (c :: cs) = readUp radix range 0 (c :: cs) := by
  unfold readNumeral
  split <;> simp_all

theorem readNumeral_toDigits (n : Nat) :
    readNumeral 10 range (Nat.toDigits 10 n) = if n ≤ range.hi then .ok (n : Int) else .error .tooLarge := by
  rw [← readUp_toDigits (by decide : 1 < 10) (by decide)]
  obtain ⟨c, cs, hcs⟩ := List.exists_cons_of_ne_nil (Nat.toDigits_ne_nil (n := n) (b := 10))
  have hc : c.isDigit := Nat.isDigit_of_mem_toDigits (by decide) (by decide) (hcs ▸ List.mem_cons_self)
  rw [hcs]
  apply readNumeral_unsigned <;> rintro rfl <;> exact absurd hc (by decide)

/-- Behind a minus sign, a number is read if its negative is in range. -/
theorem readNumeral_neg_toDigits_eq_ok_iff {n : Nat} {m : Int} (hn : 0 < n) :
    readNumeral 10 range ('-' :: Nat.toDigits 10 n) = .ok m ↔ m = -n ∧ range.lo ≤ -n := by
  rw [readNumeral_minus Nat.toDigits_ne_nil, readDown_eq_mirrored, neg_zero,
    readUp_toDigits (by decide : 1 < 10) (by decide)]
  have hrange : (n : Int) ≤ range.mirrored.hi ↔ range.lo ≤ -n := le_neg
  simp only [hrange]
  split
  · split
    · next hlo => simp [Except.map, Except.mapError, hlo, eq_comm]
    · next hlo => simp [Except.map, Except.mapError, hlo]
  · next hnonneg =>
    have hlo : ¬ range.lo ≤ -n := by omega
    simp [hlo]

/-- An integer in decimal is read as itself if it is in range, and is not read if it is not. -/
theorem readNumeral_repr_eq_ok_iff {n m : Int} (hlo : range.lo ≤ 0) (hhi : 0 ≤ range.hi) :
    readNumeral 10 range n.repr.toList = .ok m ↔ m = n ∧ range.lo ≤ n ∧ n ≤ range.hi := by
  cases n with
  | ofNat n =>
    have hrepr : (Int.ofNat n).repr.toList = Nat.toDigits 10 n := Nat.toList_repr
    have hle : range.lo ≤ n := by omega
    rw [hrepr, readNumeral_toDigits]
    split
    · next hn => simp [hle, hn, eq_comm]
    · next hn => simp [hn]
  | negSucc n =>
    have hrepr : (Int.negSucc n).repr.toList = '-' :: Nat.toDigits 10 (n + 1) := by
      simp [Int.repr, Nat.toList_repr]
    have hneg : Int.negSucc n = -((n + 1 : Nat) : Int) := rfl
    have hle : -((n + 1 : Nat) : Int) ≤ range.hi := by omega
    rw [hrepr, readNumeral_neg_toDigits_eq_ok_iff (Nat.succ_pos n), hneg]
    simp only [hle, and_true]

end Destack.Text
