import Mathlib.Tactic
import Destack.Proofs.Numerals
import Destack.Text.Hex

/-!
# Hexadecimal text and the bytes it spells

A byte is spelt by two digits, each of either case, and white space may stand anywhere between the characters. All such
texts are read as the bytes that they spell. But a pair of characters is read as a numeral, and a numeral may start with
a plus sign: in front of a digit it is taken for a zero. Texts with such a plus sign are the only ones that are read and
do not consist of digits (`hex_text_read_in_pairs`).
-/

namespace Destack.Text.Hex

/-! ## Spelling -/

/-- A character is the digit of a value, in lower or in upper case. -/
def DigitOf (c : Char) (value : Nat) : Prop :=
  "0123456789abcdef".toList[value]? = some c ∨ "0123456789ABCDEF".toList[value]? = some c

instance (c : Char) (value : Nat) : Decidable (DigitOf c value) :=
  inferInstanceAs (Decidable (_ ∨ _))

/-- Two characters are the digits of a byte. -/
def DigitPair (a b : Char) (x : UInt8) : Prop :=
  DigitOf a (x.toNat / 16) ∧ DigitOf b (x.toNat % 16)

instance (a b : Char) (x : UInt8) : Decidable (DigitPair a b x) :=
  inferInstanceAs (Decidable (_ ∧ _))

/-- Two characters are read as a byte: they are its digits, or a plus sign and its only digit. -/
def ReadPair (a b : Char) (x : UInt8) : Prop :=
  DigitPair a b x ∨ a = '+' ∧ DigitOf b x.toNat

instance (a b : Char) (x : UInt8) : Decidable (ReadPair a b x) :=
  inferInstanceAs (Decidable (_ ∨ _))

/-- Characters stand for bytes when they are taken two at a time. -/
inductive InPairs (pair : Char → Char → UInt8 → Prop) : List Char → List UInt8 → Prop where
  | nil : InPairs pair [] []
  | cons {a b : Char} {x : UInt8} {cs : List Char} {xs : List UInt8} :
    pair a b x → InPairs pair cs xs → InPairs pair (a :: b :: cs) (x :: xs)

/-- Two characters are the first pair of a text that is not read as a byte. -/
inductive FirstBad (a b : Char) : List Char → Prop where
  | here {cs : List Char} : (∀ x, ¬ ReadPair a b x) → FirstBad a b (a :: b :: cs)
  | there {c d : Char} {x : UInt8} {cs : List Char} : ReadPair c d x → FirstBad a b cs → FirstBad a b (c :: d :: cs)

/-- The second text is the first one with white space put between the characters. -/
inductive Spaced : List Char → List Char → Prop where
  | nil : Spaced [] []
  | blank {c : Char} {cs text : List Char} : isBlank c → Spaced cs text → Spaced cs (c :: text)
  | char {c : Char} {cs text : List Char} : Spaced cs text → Spaced (c :: cs) (c :: text)

/-- The characters of a text that are not white space. -/
def marks (text : List Char) : List Char :=
  text.filter (!isBlank ·)

/-! ## Digits -/

theorem DigitOf.lt {c : Char} {value : Nat} (h : DigitOf c value) : value < 16 := by
  rcases h with h | h <;> exact (List.getElem?_eq_some_iff.1 h).1

/-- The digits of radix sixteen are those of the two rows. -/
theorem digit?_eq_some_iff {c : Char} {value : Nat} : digit? 16 c = some value ↔ DigitOf c value := by
  constructor
  · intro h
    obtain ⟨hvalue, hlt⟩ := Option.filter_eq_some_iff.1 h
    have hlt : value < 16 := by simpa using hlt
    rw [← Char.ofNat_toNat c]
    split_ifs at hvalue with hdecimal hlower hupper
    · obtain ⟨hlo, hhi⟩ : 48 ≤ c.toNat ∧ c.toNat ≤ 57 := hdecimal
      obtain rfl : c.toNat - 48 = value := Option.some.inj hvalue
      interval_cases c.toNat <;> decide
    · obtain ⟨hlo, -⟩ : 97 ≤ c.toNat ∧ c.toNat ≤ 122 := hlower
      obtain rfl : c.toNat - 97 + 10 = value := Option.some.inj hvalue
      have hhi : c.toNat ≤ 102 := by omega
      interval_cases c.toNat <;> decide
    · obtain ⟨hlo, -⟩ : 65 ≤ c.toNat ∧ c.toNat ≤ 90 := hupper
      obtain rfl : c.toNat - 65 + 10 = value := Option.some.inj hvalue
      have hhi : c.toNat ≤ 70 := by omega
      interval_cases c.toNat <;> decide
  · intro h
    have hlt := h.lt
    rcases h with h | h <;> interval_cases value <;> cases h <;> decide

theorem DigitOf.ne {c sign : Char} {value : Nat} (h : DigitOf c value) (hsign : digit? 16 sign = none) : c ≠ sign := by
  rintro rfl
  rw [digit?_eq_some_iff.2 h] at hsign
  cases hsign

theorem DigitOf.not_blank {c : Char} {value : Nat} (h : DigitOf c value) : isBlank c = false := by
  have hlt := h.lt
  rcases h with h | h <;> interval_cases value <;> cases h <;> decide

theorem digitOf_digit {value : Nat} (h : value < 16) : DigitOf (digit value) value := by
  interval_cases value <;> decide

theorem digitPair_ofNat {a b : Char} {v w : Nat} (ha : DigitOf a v) (hb : DigitOf b w) :
    DigitPair a b (UInt8.ofNat (v * 16 + w)) := by
  have hv := ha.lt
  have hw := hb.lt
  have hlt : v * 16 + w < UInt8.size := by
    simp only [UInt8.size]
    omega
  have hx : (UInt8.ofNat (v * 16 + w)).toNat = v * 16 + w := UInt8.toNat_ofNat_of_lt' hlt
  rw [DigitPair, hx, show (v * 16 + w) / 16 = v by omega, show (v * 16 + w) % 16 = w by omega]
  exact ⟨ha, hb⟩

/-! ## One pair -/

theorem DigitOf.readUp {c : Char} {v : Nat} {value : Int} (cs : List Char) (h : DigitOf c v)
    (hle : value * 16 + v ≤ 255) :
    readUp 16 .unsigned8 value (c :: cs) = Text.readUp 16 .unsigned8 (value * 16 + v) cs := by
  rw [Text.readUp, digit?_eq_some_iff.2 h]
  exact if_pos hle

theorem readUp_of_not_digit {c : Char} {value : Int} (cs : List Char) (h : ∀ v, ¬ DigitOf c v) :
    readUp 16 .unsigned8 value (c :: cs) = .error .invalidDigit := by
  have hnone : digit? 16 c = none := Option.eq_none_iff_forall_ne_some.2 fun v hv => h v (digit?_eq_some_iff.1 hv)
  rw [readUp, hnone]

theorem ReadPair.readNumeral {a b : Char} {x : UInt8} (h : ReadPair a b x) :
    readNumeral 16 .unsigned8 [a, b] = .ok (x.toNat : Int) := by
  have hx := x.toNat_lt
  rcases h with ⟨ha, hb⟩ | ⟨rfl, hb⟩
  · have hsplit : (0 * 16 + (x.toNat / 16 : Nat)) * 16 + (x.toNat % 16 : Nat) = (x.toNat : Int) := by omega
    rw [readNumeral_unsigned (ha.ne (by decide)) (ha.ne (by decide)), ha.readUp _ (by omega), hb.readUp _ (by omega),
      hsplit]
    rfl
  · have hlow := hb.lt
    rw [readNumeral_plus (by simp), hb.readUp _ (by omega), Int.zero_mul, Int.zero_add]
    rfl

/-- Two characters are never too large and never too small: if they are not read, one of them is out of place. -/
theorem readNumeral_pair_of_not {a b : Char} (h : ∀ x, ¬ ReadPair a b x) :
    readNumeral 16 .unsigned8 [a, b] = .error .invalidDigit := by
  by_cases hplus : a = '+'
  · subst hplus
    rw [readNumeral_plus (by simp)]
    refine readUp_of_not_digit _ fun v hv => h (UInt8.ofNat v) (.inr ⟨rfl, ?_⟩)
    have hlt : v < UInt8.size := hv.lt.trans (by decide)
    rwa [UInt8.toNat_ofNat_of_lt' hlt]
  by_cases hminus : a = '-'
  · subst hminus
    rfl
  rw [readNumeral_unsigned hplus hminus]
  by_cases ha : ∃ v, DigitOf a v
  · obtain ⟨v, ha⟩ := ha
    have hlt := ha.lt
    rw [ha.readUp _ (by omega)]
    exact readUp_of_not_digit _ fun w hb => h _ (.inl (digitPair_ofNat ha hb))
  · exact readUp_of_not_digit _ (not_exists.1 ha)

/-! ## All pairs -/

theorem readPairs_of_readPair {a b : Char} {x : UInt8} (cs : List Char) (h : ReadPair a b x) :
    readPairs (a :: b :: cs) = (x :: ·) <$> readPairs cs := by
  rw [readPairs, h.readNumeral]
  simp

theorem readPairs_of_not_readPair {a b : Char} (cs : List Char) (h : ∀ x, ¬ ReadPair a b x) :
    readPairs (a :: b :: cs) = .error (.badByte (String.ofList [a, b]) .invalidDigit) := by
  rw [readPairs, readNumeral_pair_of_not h]

theorem InPairs.readPairs {cs : List Char} {bytes : List UInt8} (h : InPairs ReadPair cs bytes) :
    readPairs cs = .ok bytes := by
  induction h with
  | nil => rfl
  | cons hx _ ih =>
    rw [readPairs_of_readPair _ hx, ih]
    rfl

theorem FirstBad.readPairs {a b : Char} {cs : List Char} (h : FirstBad a b cs) :
    readPairs cs = .error (.badByte (String.ofList [a, b]) .invalidDigit) := by
  induction h with
  | here hnot => exact readPairs_of_not_readPair _ hnot
  | there hx _ ih =>
    rw [readPairs_of_readPair _ hx, ih]
    rfl

/-- If the pairs come out even, all of them are read or there is a first one that is not. -/
theorem inPairs_or_firstBad {cs : List Char} (heven : cs.length % 2 = 0) :
    (∃ bytes, InPairs ReadPair cs bytes) ∨ ∃ a b, FirstBad a b cs := by
  induction cs using List.twoStepInduction with
  | nil => exact .inl ⟨[], .nil⟩
  | singleton c => cases heven
  | cons_cons a b cs ih =>
    by_cases hpair : ∃ x, ReadPair a b x
    · obtain ⟨x, hx⟩ := hpair
      rcases ih ((Nat.add_mod_right _ 2).symm.trans heven) with ⟨xs, hxs⟩ | ⟨c, d, hbad⟩
      · exact .inl ⟨x :: xs, .cons hx hxs⟩
      · exact .inr ⟨c, d, .there hx hbad⟩
    · exact .inr ⟨a, b, .here (not_exists.1 hpair)⟩

theorem readPairs_eq_ok_iff {cs : List Char} {bytes : List UInt8} (heven : cs.length % 2 = 0) :
    readPairs cs = .ok bytes ↔ InPairs ReadPair cs bytes := by
  refine ⟨fun hok => ?_, InPairs.readPairs⟩
  rcases inPairs_or_firstBad heven with ⟨xs, hxs⟩ | ⟨a, b, hbad⟩
  · obtain rfl := Except.ok.inj (hxs.readPairs.symm.trans hok)
    exact hxs
  · cases hbad.readPairs.symm.trans hok

theorem readPairs_eq_error_iff {cs : List Char} {e : ReadError} (heven : cs.length % 2 = 0) :
    readPairs cs = .error e ↔ ∃ a b, FirstBad a b cs ∧ e = .badByte (String.ofList [a, b]) .invalidDigit := by
  constructor
  · intro herror
    rcases inPairs_or_firstBad heven with ⟨xs, hxs⟩ | ⟨a, b, hbad⟩
    · cases hxs.readPairs.symm.trans herror
    · exact ⟨a, b, hbad, Except.error.inj (herror.symm.trans hbad.readPairs)⟩
  · rintro ⟨a, b, hbad, rfl⟩
    exact hbad.readPairs

namespace InPairs

variable {pair pair' : Char → Char → UInt8 → Prop} {cs : List Char} {bytes : List UInt8}

theorem length_eq (h : InPairs pair cs bytes) : cs.length = 2 * bytes.length := by
  induction h with
  | nil => rfl
  | cons _ _ ih =>
    simp only [List.length_cons, ih]
    omega

theorem mono (hpair : ∀ {a b x}, a ∈ cs → pair a b x → pair' a b x) (h : InPairs pair cs bytes) :
    InPairs pair' cs bytes := by
  induction h with
  | nil => exact .nil
  | cons hx _ ih =>
    exact .cons (hpair List.mem_cons_self hx) (ih fun ha => hpair (List.mem_cons_of_mem _ (List.mem_cons_of_mem _ ha)))

theorem digitOf_of_mem (h : InPairs DigitPair cs bytes) : ∀ c ∈ cs, ∃ v, DigitOf c v := by
  induction h with
  | nil => exact List.forall_mem_nil _
  | cons hx _ ih =>
    obtain ⟨ha, hb⟩ := hx
    exact List.forall_mem_cons.2 ⟨⟨_, ha⟩, List.forall_mem_cons.2 ⟨⟨_, hb⟩, ih⟩⟩

end InPairs

/-- What spells bytes is an even number of digits. -/
theorem exists_inPairs_digitPair_iff {cs : List Char} :
    (∃ bytes, InPairs DigitPair cs bytes) ↔ cs.length % 2 = 0 ∧ ∀ c ∈ cs, ∃ v, DigitOf c v := by
  constructor
  · rintro ⟨bytes, h⟩
    exact ⟨by rw [h.length_eq, Nat.mul_mod_right], h.digitOf_of_mem⟩
  · rintro ⟨heven, hdigit⟩
    induction cs using List.twoStepInduction with
    | nil => exact ⟨[], .nil⟩
    | singleton c => cases heven
    | cons_cons a b cs ih =>
      obtain ⟨⟨v, ha⟩, hrest⟩ := List.forall_mem_cons.1 hdigit
      obtain ⟨⟨w, hb⟩, hcs⟩ := List.forall_mem_cons.1 hrest
      obtain ⟨xs, hxs⟩ := ih ((Nat.add_mod_right _ 2).symm.trans heven) hcs
      exact ⟨_, .cons (digitPair_ofNat ha hb) hxs⟩

theorem inPairs_ofBytes (bytes : List UInt8) : InPairs DigitPair (ofBytes bytes).toList bytes := by
  induction bytes with
  | nil => exact .nil
  | cons x xs ih =>
    have hx := x.toNat_lt
    have htext : (ofBytes (x :: xs)).toList = digit (x.toNat / 16) :: digit (x.toNat % 16) :: (ofBytes xs).toList := by
      simp [ofBytes, ofByte]
    rw [htext]
    exact .cons ⟨digitOf_digit (by omega), digitOf_digit (by omega)⟩ ih

/-! ## White space -/

theorem Spaced.marks_eq {cs text : List Char} (h : Spaced cs text) (hcs : ∀ c ∈ cs, isBlank c = false) :
    marks text = cs := by
  induction h with
  | nil => rfl
  | blank hc _ ih =>
    rw [← ih hcs]
    exact List.filter_cons_of_neg (by simp [hc])
  | char _ ih =>
    obtain ⟨hc, hcs⟩ := List.forall_mem_cons.1 hcs
    rw [marks, List.filter_cons_of_pos (by simp [hc])]
    exact congrArg _ (ih hcs)

theorem plus_mem_marks {text : List Char} : '+' ∈ marks text ↔ '+' ∈ text := by
  rw [marks, List.mem_filter]
  exact and_iff_left (by decide)

/-! ## Texts -/

theorem read_of_even {text : List Char} (heven : (marks text).length % 2 = 0) : read text = readPairs (marks text) :=
  if_pos heven

theorem read_of_odd {text : List Char} (hodd : ¬ (marks text).length % 2 = 0) : read text = .error .oddDigits :=
  if_neg hodd

theorem read_eq_ok_iff {text : List Char} {bytes : List UInt8} :
    read text = .ok bytes ↔ InPairs ReadPair (marks text) bytes := by
  by_cases heven : (marks text).length % 2 = 0
  · rw [read_of_even heven, readPairs_eq_ok_iff heven]
  · rw [read_of_odd heven]
    refine iff_of_false (by simp) fun hpairs => heven ?_
    rw [hpairs.length_eq, Nat.mul_mod_right]

theorem read_eq_error_iff {text : List Char} {e : ReadError} :
    read text = .error e ↔ (marks text).length % 2 = 1 ∧ e = .oddDigits ∨ (marks text).length % 2 = 0 ∧
      ∃ a b, FirstBad a b (marks text) ∧ e = .badByte (String.ofList [a, b]) .invalidDigit := by
  by_cases heven : (marks text).length % 2 = 0
  · rw [read_of_even heven, readPairs_eq_error_iff heven]
    simp [heven]
  · have hodd : (marks text).length % 2 = 1 := by omega
    rw [read_of_odd heven]
    simp [hodd, eq_comm]

/-- Where there is no plus sign, the pairs that are read are digits. -/
theorem inPairs_digitPair_iff {cs : List Char} {bytes : List UInt8} :
    InPairs DigitPair cs bytes ↔ InPairs ReadPair cs bytes ∧ '+' ∉ cs := by
  constructor
  · intro h
    refine ⟨h.mono fun _ => .inl, fun hplus => ?_⟩
    obtain ⟨v, hv⟩ := h.digitOf_of_mem _ hplus
    exact hv.ne (by decide) rfl
  · rintro ⟨h, hplus⟩
    refine h.mono fun ha hx => hx.resolve_right ?_
    rintro ⟨rfl, -⟩
    exact hplus ha

/-- How a text is read as bytes. -/
structure ReadAsHex (text : List Char) : Prop where
  grammar : ∀ {bytes}, read text = .ok bytes ↔ InPairs ReadPair (marks text) bytes
  /-- Digits are read as the bytes that they spell, wherever white space is put between them. -/
  spelt : ∀ {cs bytes}, InPairs DigitPair cs bytes → Spaced cs text → read text = .ok bytes
  /-- A text consists of the digits of bytes if it is read as these and has no plus sign. -/
  digits : ∀ {bytes}, InPairs DigitPair (marks text) bytes ↔ read text = .ok bytes ∧ '+' ∉ text
  /-- A text consists of an even number of digits if it is read and has no plus sign. -/
  even : (marks text).length % 2 = 0 ∧ (∀ c ∈ marks text, ∃ v, DigitOf c v) ↔
    (∃ bytes, read text = .ok bytes) ∧ '+' ∉ text
  /-- An odd number of characters is reported whatever they are, and otherwise the first pair that is not read. -/
  refused : ∀ {e}, read text = .error e ↔ (marks text).length % 2 = 1 ∧ e = .oddDigits ∨ (marks text).length % 2 = 0 ∧
    ∃ a b, FirstBad a b (marks text) ∧ e = .badByte (String.ofList [a, b]) .invalidDigit

theorem inPairs_digitPair_marks_iff {text : List Char} {bytes : List UInt8} :
    InPairs DigitPair (marks text) bytes ↔ read text = .ok bytes ∧ '+' ∉ text := by
  rw [inPairs_digitPair_iff, plus_mem_marks, read_eq_ok_iff]

theorem readAsHex (text : List Char) : ReadAsHex text where
  grammar := read_eq_ok_iff
  spelt := by
    intro cs bytes hcs hspaced
    have hblank : ∀ c ∈ cs, isBlank c = false := by
      intro c hc
      obtain ⟨v, hv⟩ := hcs.digitOf_of_mem c hc
      exact hv.not_blank
    rw [read_eq_ok_iff, hspaced.marks_eq hblank]
    exact (inPairs_digitPair_iff.1 hcs).1
  digits := inPairs_digitPair_marks_iff
  even := by
    rw [← exists_inPairs_digitPair_iff, ← exists_and_right]
    exact exists_congr fun _ => inPairs_digitPair_marks_iff
  refused := read_eq_error_iff

/-- All bytes can be spelt, and digits are read as the bytes that they spell, in either case and with white space
anywhere. The only other texts that are read are those in which a plus sign stands in front of the only digit of a
byte. -/
theorem hex_text_read_in_pairs (text : List Char) (bytes : List UInt8) :
    InPairs DigitPair (ofBytes bytes).toList bytes ∧ ReadAsHex text :=
  ⟨inPairs_ofBytes bytes, readAsHex text⟩

/-- White space inside a pair and digits of both cases; one sign that is read for a digit, and one that is not. -/
theorem signed_texts_read_in_pairs :
    read "4 8\nfA+e".toList = .ok [0x48, 0xfa, 0x0e] ∧ read "4 8-e".toList = .error (.badByte "-e" .invalidDigit) := by
  have hpairs : ReadPair '4' '8' 0x48 ∧ ReadPair 'f' 'A' 0xfa ∧ ReadPair '+' 'e' 0x0e := by decide
  have hminus : ∀ x, ¬ ReadPair '-' 'e' x := by
    rintro x (⟨hdigit, -⟩ | ⟨hplus, -⟩)
    · exact hdigit.ne (by decide) rfl
    · exact absurd hplus (by decide)
  refine ⟨(hex_text_read_in_pairs _ []).2.grammar.2 ?_, (hex_text_read_in_pairs _ []).2.refused.2 ?_⟩
  · exact .cons hpairs.1 (.cons hpairs.2.1 (.cons hpairs.2.2 .nil))
  · exact .inr ⟨by decide, '-', 'e', .there hpairs.1 (.here hminus), rfl⟩

/-- A plus sign is no digit, but it is read. -/
theorem plus_read_for_digit :
    read "+4".toList = .ok [4] ∧
      ¬ ((marks "+4".toList).length % 2 = 0 ∧ ∀ c ∈ marks "+4".toList, ∃ v, DigitOf c v) := by
  refine ⟨by decide, ?_⟩
  rintro ⟨-, hdigit⟩
  obtain ⟨v, hv⟩ := hdigit '+' (by decide)
  exact hv.ne (by decide) rfl

end Destack.Text.Hex
