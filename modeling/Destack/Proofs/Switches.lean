import Mathlib.Data.Int.Range
import Destack.Proofs.Encoding
import Destack.Proofs.Opcodes

/-!
# Switches

A switch is measured when it is cut out of the code, and its jump table is read later from the operands that were cut
out. Both go by the same words, which start at the first multiple of four behind the opcode: reading looks at no
position outside of the operands (`inside_of_mem_tablePositions`), and the table is the one that stands in the code
(`rangeTable_of_stands`, `pairTable_of_stands`).
-/

namespace Destack.Instruction

/-! ## What reading a table looks at -/

/-- The jump table of a switch, read through a reader of words that may refuse a position. -/
def readTable? (i : Instruction) (word : Nat → Option Int) : Option SwitchTable :=
  let base := switchPadding i.address
  if i.opcode = Opcode.tableswitch then do
    let default ← word base
    let low ← word (base + 4)
    let high ← word (base + 8)
    let cases ← (List.range (high - low + 1).toNat).mapM fun (k : Nat) => do
      return (low + k, ← word (base + 12 + 4 * k))
    return { default, cases }
  else if i.opcode = Opcode.lookupswitch then do
    let default ← word base
    let count ← word (base + 4)
    let cases ← (List.range count.toNat).mapM fun (k : Nat) => do
      return (← word (base + 8 + 8 * k), ← word (base + 12 + 8 * k))
    return { default, cases }
  else none

/-- Positions in the operands of the words that make up the jump table. -/
def tablePositions (i : Instruction) : List Nat :=
  let base := switchPadding i.address
  if i.opcode = Opcode.tableswitch then
    let count := (i.signedWordAt (base + 8) - i.signedWordAt (base + 4) + 1).toNat
    base :: (base + 4) :: (base + 8) :: (List.range count).map (base + 12 + 4 * ·)
  else if i.opcode = Opcode.lookupswitch then
    let count := (i.signedWordAt (base + 4)).toNat
    base :: (base + 4) :: (List.range count).flatMap fun k => [base + 8 + 8 * k, base + 12 + 8 * k]
  else []

theorem mapM_eq_some_map {α β : Type} {f : α → Option β} {g : α → β} {xs : List α} (h : ∀ x ∈ xs, f x = some (g x)) :
    xs.mapM f = some (xs.map g) := by
  induction xs with
  | nil => rfl
  | cons x xs ih =>
    obtain ⟨hx, hxs⟩ := List.forall_mem_cons.1 h
    rw [List.mapM_cons, hx, ih hxs]
    rfl

variable {i : Instruction} {word : Nat → Option Int}

/-- Any reader that is right about these positions gives the table. -/
theorem readTable?_eq (h : ∀ k ∈ i.tablePositions, word k = some (i.signedWordAt k)) :
    i.readTable? word = i.switchTable? := by
  unfold tablePositions at h
  unfold readTable? switchTable?
  dsimp only at h ⊢
  by_cases hrange : i.opcode = Opcode.tableswitch
  · simp only [if_pos hrange, List.forall_mem_cons, List.forall_mem_map] at h ⊢
    obtain ⟨hdefault, hlow, hhigh, hcases⟩ := h
    refine Option.bind_eq_some_iff.2 ⟨_, hdefault, Option.bind_eq_some_iff.2 ⟨_, hlow,
      Option.bind_eq_some_iff.2 ⟨_, hhigh, Option.bind_eq_some_iff.2 ⟨_, mapM_eq_some_map fun k hk => ?_, rfl⟩⟩⟩⟩
    exact Option.bind_eq_some_iff.2 ⟨_, hcases k hk, rfl⟩
  · by_cases hpairs : i.opcode = Opcode.lookupswitch
    · simp only [if_neg hrange, if_pos hpairs, List.forall_mem_cons, List.forall_mem_flatMap] at h ⊢
      obtain ⟨hdefault, hcount, hcases⟩ := h
      refine Option.bind_eq_some_iff.2 ⟨_, hdefault, Option.bind_eq_some_iff.2 ⟨_, hcount,
        Option.bind_eq_some_iff.2 ⟨_, mapM_eq_some_map fun k hk => ?_, rfl⟩⟩⟩
      obtain ⟨hkey, hoffset, -⟩ := hcases k hk
      exact Option.bind_eq_some_iff.2 ⟨_, hkey, Option.bind_eq_some_iff.2 ⟨_, hoffset, rfl⟩⟩
    · rw [if_neg hrange, if_neg hrange, if_neg hpairs, if_neg hpairs]

/-- An instruction that measures itself has room for its table. -/
theorem inside_of_mem_tablePositions (h : i.MeasuresItself) : ∀ k ∈ i.tablePositions, k + 4 ≤ i.operands.size := by
  unfold tablePositions
  dsimp only
  cases h with
  | tableswitch hop hle hsize =>
    simp only [if_pos hop, List.forall_mem_cons, List.forall_mem_map, List.mem_range]
    exact ⟨by omega, by omega, by omega, fun k hk => by omega⟩
  | lookupswitch hop hle hsize =>
    have hne : i.opcode ≠ Opcode.tableswitch := by
      rw [hop]
      decide
    simp only [if_neg hne, if_pos hop, List.forall_mem_cons, List.forall_mem_flatMap, List.mem_range]
    exact ⟨by omega, by omega, fun k hk => ⟨by omega, by omega, List.forall_mem_nil _⟩⟩
  | wide hop hsize =>
    have hne : i.opcode ≠ Opcode.tableswitch ∧ i.opcode ≠ Opcode.lookupswitch := by
      rw [hop]
      decide
    rw [if_neg hne.1, if_neg hne.2]
    exact List.forall_mem_nil _

/-- Bytes behind the operands make no difference to the table. -/
theorem switchTable?_append (h : i.MeasuresItself) (extra : Array UInt8) :
    { i with operands := i.operands ++ extra }.switchTable? = i.switchTable? := by
  let j : Instruction := { i with operands := i.operands ++ extra }
  have hbyte : ∀ k, k < i.operands.size → j.byteAt k = i.byteAt k := by
    intro k hk
    unfold byteAt
    rw [Array.getElem?_append_left hk]
  have hword : ∀ k, k + 4 ≤ i.operands.size → j.signedWordAt k = i.signedWordAt k := by
    intro k hk
    unfold signedWordAt halfAt
    rw [hbyte k (by omega), hbyte (k + 1) (by omega), hbyte (k + 2) (by omega), hbyte (k + 2 + 1) (by omega)]
  calc j.switchTable?
    _ = j.readTable? fun k => some (j.signedWordAt k) := (readTable?_eq fun _ _ => rfl).symm
    _ = i.readTable? fun k => some (j.signedWordAt k) := rfl
    _ = i.switchTable? := readTable?_eq fun k hk => congrArg some (hword k (inside_of_mem_tablePositions h k hk))

/-! ## Switches in code -/

/-- The word with a number in the payload of a switch at an address. The payload starts at the first multiple of four
behind the opcode. -/
def payload? (code : List UInt8) (a k : Nat) : Option Int :=
  wordAt? code (a + 1 + switchPadding a + 4 * k)

/-- The table of a switch at an address with a key for every number from a low to a high one, as it stands in code: the
default offset, both ends, and one offset for each key. -/
structure RangeTable (code : List UInt8) (a : Nat) (t : SwitchTable) (low high : Int) : Prop where
  default_eq : payload? code a 0 = some t.default
  low_eq : payload? code a 1 = some low
  high_eq : payload? code a 2 = some high
  bounds : -2 ^ 31 ≤ low ∧ low ≤ high ∧ high < 2 ^ 31
  keys_eq : t.cases.map (·.1) = Int.range low (high + 1)
  ascending : (t.cases.map (·.1)).Pairwise (· < ·)
  offset_eq : ∀ k case, t.cases[k]? = some case → payload? code a (3 + k) = some case.2

/-- The table of a switch at an address that lists its keys, as it stands in code: the default offset, the number of
cases, and a key and an offset for each. -/
structure PairTable (code : List UInt8) (a : Nat) (t : SwitchTable) : Prop where
  default_eq : payload? code a 0 = some t.default
  count_eq : payload? code a 1 = some (t.cases.length : Int)
  key_eq : ∀ k case, t.cases[k]? = some case → payload? code a (2 + 2 * k) = some case.1
  offset_eq : ∀ k case, t.cases[k]? = some case → payload? code a (3 + 2 * k) = some case.2

theorem signedWordAt_bounds (i : Instruction) (k : Nat) : -2 ^ 31 ≤ i.signedWordAt k ∧ i.signedWordAt k < 2 ^ 31 :=
  ⟨Int.le_bmod (by decide), Int.bmod_lt (by decide)⟩

theorem wordAt?_append_right (front rest : List UInt8) (k : Nat) :
    wordAt? (front ++ rest) (front.length + k) = wordAt? rest k := by
  unfold wordAt?
  rw [List.drop_append, List.drop_of_length_le (by omega), List.nil_append, Nat.add_sub_cancel_left]

/-- The operands of a decoded instruction stand in the code, right behind its opcode. -/
theorem exists_code_eq {table : OperandTable} {code : List UInt8} {is : List Instruction}
    (h : decode table code = .ok is) (hi : i ∈ is) :
    ∃ front rest, code = front ++ (i.operands.toList ++ rest) ∧ front.length = i.address + 1 := by
  obtain ⟨hwf, rfl⟩ := decode_eq_ok_iff.1 h
  obtain ⟨before, after, rfl⟩ := List.append_of_mem hi
  obtain ⟨haddress, -⟩ := wellFormed_cons.1 (wellFormed_append.1 hwf).2
  refine ⟨encode before ++ [i.opcode], encode after, by simp [bytes], ?_⟩
  rw [List.length_append, haddress, Nat.zero_add, List.length_singleton]

/-- The words of the payload of an instruction are those of the code behind its opcode. -/
def Stands (code : List UInt8) (i : Instruction) : Prop :=
  ∀ k n, n = switchPadding i.address + 4 * k → n + 4 ≤ i.operands.size →
    payload? code i.address k = some (i.signedWordAt n)

theorem stands_of_code_eq {front rest : List UInt8} (hlength : front.length = i.address + 1) :
    Stands (front ++ (i.operands.toList ++ rest)) i := by
  rintro k n rfl hn
  unfold payload?
  rw [Nat.add_assoc (i.address + 1), ← hlength, wordAt?_append_right]
  exact wordAt?_operands hn rest

theorem eq_of_getElem?_map_range {α : Type} {f : Nat → α} {n k : Nat} {x : α}
    (h : ((List.range n).map f)[k]? = some x) : k < n ∧ f k = x := by
  obtain ⟨hk, rfl⟩ := List.getElem?_eq_some_iff.1 h
  rw [List.length_map, List.length_range] at hk
  exact ⟨hk, by simp⟩

theorem keys_eq_range (low high : Int) (offset : Nat → Int) :
    ((List.range (high - low + 1).toNat).map fun (k : Nat) => (low + k, offset k)).map (·.1) =
      Int.range low (high + 1) := by
  rw [Int.range, List.map_map, add_sub_right_comm]
  rfl

theorem pairwise_lt_range (low high : Int) : (Int.range low high).Pairwise (· < ·) := by
  rw [Int.range, List.pairwise_map]
  exact List.pairwise_lt_range.imp fun {k l} hkl => by omega

variable {code : List UInt8}

/-- The table of a switch with a key for every number between two. -/
theorem rangeTable_of_stands (hcode : Stands code i) (hop : i.opcode = Opcode.tableswitch)
    (hle : i.signedWordAt (switchPadding i.address + 4) ≤ i.signedWordAt (switchPadding i.address + 8))
    (hsize : (i.operands.size : Int) = switchPadding i.address + 12 +
      4 * (i.signedWordAt (switchPadding i.address + 8) - i.signedWordAt (switchPadding i.address + 4) + 1)) :
    ∃ t low high, i.switchTable? = some t ∧
      i.operands.size = switchPadding i.address + 12 + 4 * t.cases.length ∧ RangeTable code i.address t low high := by
  have hlow := i.signedWordAt_bounds (switchPadding i.address + 4)
  have hhigh := i.signedWordAt_bounds (switchPadding i.address + 8)
  unfold switchTable?
  dsimp only
  rw [if_pos hop]
  unfold Stands at hcode
  -- What a word is made of no longer matters.
  generalize i.signedWordAt = word at *
  refine ⟨_, word (switchPadding i.address + 4), word (switchPadding i.address + 8), rfl, ?_, ?_⟩
  · rw [List.length_map, List.length_range]
    omega
  · refine ⟨hcode 0 _ (by omega) (by omega), hcode 1 _ (by omega) (by omega), hcode 2 _ (by omega) (by omega),
      ⟨hlow.1, hle, hhigh.2⟩, keys_eq_range .., keys_eq_range .. ▸ pairwise_lt_range .., ?_⟩
    intro k case hcase
    obtain ⟨hk, rfl⟩ := eq_of_getElem?_map_range hcase
    exact hcode (3 + k) _ (by omega) (by omega)

/-- The table of a switch that lists its keys. -/
theorem pairTable_of_stands (hcode : Stands code i) (hop : i.opcode = Opcode.lookupswitch)
    (hle : 0 ≤ i.signedWordAt (switchPadding i.address + 4))
    (hsize : (i.operands.size : Int) = switchPadding i.address + 8 +
      8 * i.signedWordAt (switchPadding i.address + 4)) :
    ∃ t, i.switchTable? = some t ∧ i.operands.size = switchPadding i.address + 8 + 8 * t.cases.length ∧
      PairTable code i.address t := by
  have hne : i.opcode ≠ Opcode.tableswitch := by
    rw [hop]
    decide
  unfold switchTable?
  dsimp only
  rw [if_neg hne, if_pos hop]
  unfold Stands at hcode
  generalize i.signedWordAt = word at *
  refine ⟨_, rfl, ?_, hcode 0 _ (by omega) (by omega), ?_, ?_, ?_⟩
  · rw [List.length_map, List.length_range]
    omega
  · rw [List.length_map, List.length_range, Int.toNat_of_nonneg hle]
    exact hcode 1 _ (by omega) (by omega)
  · intro k case hcase
    obtain ⟨hk, rfl⟩ := eq_of_getElem?_map_range hcase
    exact hcode (2 + 2 * k) _ (by omega) (by omega)
  · intro k case hcase
    obtain ⟨hk, rfl⟩ := eq_of_getElem?_map_range hcase
    exact hcode (3 + 2 * k) _ (by omega) (by omega)

/-! ## Measuring and reading -/

/-- A switch in code has a jump table, and reading it agrees with measuring it. -/
structure ReadAsMeasured (code : List UInt8) (i : Instruction) (t : SwitchTable) : Prop where
  table_eq : i.switchTable? = some t
  /-- The operands are as many bytes as the code behind the opcode prescribes. -/
  measured : measure i.address i.opcode (code.drop (i.address + 1)) = .ok i.operands.size
  /-- No word is missing from the operands. -/
  inside : i.readTable? (wordAt? i.operands.toList) = some t
  /-- Nothing behind the operands is looked at. -/
  append_eq : ∀ extra, { i with operands := i.operands ++ extra }.switchTable? = some t
  range : i.opcode = Opcode.tableswitch → ∃ low high,
    i.operands.size = switchPadding i.address + 12 + 4 * t.cases.length ∧ RangeTable code i.address t low high
  pairs : i.opcode = Opcode.lookupswitch →
    i.operands.size = switchPadding i.address + 8 + 8 * t.cases.length ∧ PairTable code i.address t
  jumpTargets_eq : i.jumpTargets = (i.address + t.default) :: t.cases.map fun case => i.address + case.2

/-- Code in which an operand table lets the switches measure themselves: every switch that is cut out of it has as many
operand bytes as its jump table takes up behind the padding, the table is read from these bytes alone and is the one
that stands in the code, a switch over a range has each key of the range once and in order, and the jumps go to the
default and then to the cases in the order of the payload. -/
theorem decoded_switch_read_as_measured {table : OperandTable} {is : List Instruction}
    (h : decode table code = .ok is) (hi : i ∈ is)
    (hop : i.opcode = Opcode.tableswitch ∨ i.opcode = Opcode.lookupswitch)
    (hdynamic : table i.opcode = some .dynamic) : ∃ t, ReadAsMeasured code i t := by
  have hself : i.MeasuresItself := by
    have hfits := (decode_eq_ok_iff.1 h).1.2 i hi
    rwa [Fits, hdynamic] at hfits
  obtain ⟨front, rest, rfl, hlength⟩ := exists_code_eq h hi
  have hcode : Stands (front ++ (i.operands.toList ++ rest)) i := stands_of_code_eq hlength
  have hne : Opcode.tableswitch ≠ Opcode.lookupswitch := by decide
  obtain ⟨t, htable, hrange, hpairs⟩ : ∃ t, i.switchTable? = some t ∧
      (i.opcode = Opcode.tableswitch → ∃ low high,
        i.operands.size = switchPadding i.address + 12 + 4 * t.cases.length ∧
          RangeTable (front ++ (i.operands.toList ++ rest)) i.address t low high) ∧
      (i.opcode = Opcode.lookupswitch → i.operands.size = switchPadding i.address + 8 + 8 * t.cases.length ∧
        PairTable (front ++ (i.operands.toList ++ rest)) i.address t) := by
    cases hself with
    | tableswitch hop hle hsize =>
      obtain ⟨t, low, high, htable, hlength, hrange⟩ := rangeTable_of_stands hcode hop hle hsize
      exact ⟨t, htable, fun _ => ⟨low, high, hlength, hrange⟩, fun hop' => absurd (hop.symm.trans hop') hne⟩
    | lookupswitch hop hle hsize =>
      obtain ⟨t, htable, hpairs⟩ := pairTable_of_stands hcode hop hle hsize
      exact ⟨t, htable, fun hop' => absurd (hop'.symm.trans hop) hne, fun _ => hpairs⟩
    | wide hwide => exact absurd hop (by rw [hwide]; decide)
  refine ⟨t, htable, ?_, ?_, fun extra => (switchTable?_append hself extra).trans htable, hrange, hpairs, ?_⟩
  · rw [← hlength, List.drop_left]
    exact measure_eq_ok_iff.2 hself
  · rw [← htable]
    refine readTable?_eq fun k hk => ?_
    have hword := wordAt?_operands (inside_of_mem_tablePositions hself k hk) []
    rwa [List.append_nil] at hword
  · rw [jumpTargets_of_switchTable? htable, List.map_cons, List.map_map]
    rfl

/-- A switch at address one that lists one key, then one at address twenty over the keys from minus one to one. -/
def twoSwitches : List UInt8 :=
  [0x1a, 0xab, 0, 0, 0, 0, 0, 47, 0, 0, 0, 1, 0, 0, 0, 7, 255, 255, 255, 255,
    0xaa, 0, 0, 0, 0, 0, 0, 28, 255, 255, 255, 255, 0, 0, 0, 1, 0, 0, 0, 28, 255, 255, 255, 236, 255, 255, 255, 237,
    0xb1]

def pairSwitch : Instruction where
  address := 1
  opcode := Opcode.lookupswitch
  operands := #[0, 0, 0, 0, 0, 47, 0, 0, 0, 1, 0, 0, 0, 7, 255, 255, 255, 255]

def rangeSwitch : Instruction where
  address := 20
  opcode := Opcode.tableswitch
  operands := #[0, 0, 0, 0, 0, 0, 28, 255, 255, 255, 255, 0, 0, 0, 1, 0, 0, 0, 28, 255, 255, 255, 236,
    255, 255, 255, 237]

theorem decode_twoSwitches : decode .standard twoSwitches =
    .ok [{ address := 0, opcode := 0x1a, operands := #[] }, pairSwitch, rangeSwitch,
      { address := 48, opcode := 0xb1, operands := #[] }] := by
  decide +kernel

theorem twoSwitches_read_as_measured :
    ReadAsMeasured twoSwitches pairSwitch ⟨47, [(7, -1)]⟩ ∧
      ReadAsMeasured twoSwitches rangeSwitch ⟨28, [(-1, 28), (0, -20), (1, -19)]⟩ := by
  obtain ⟨t, hpairs⟩ := decoded_switch_read_as_measured decode_twoSwitches (i := pairSwitch) (by simp) (.inr rfl)
    (by decide +kernel)
  obtain ⟨u, hrange⟩ := decoded_switch_read_as_measured decode_twoSwitches (i := rangeSwitch) (by simp) (.inl rfl)
    (by decide +kernel)
  have ht : pairSwitch.switchTable? = some ⟨47, [(7, -1)]⟩ := by decide +kernel
  have hu : rangeSwitch.switchTable? = some ⟨28, [(-1, 28), (0, -20), (1, -19)]⟩ := by decide +kernel
  obtain rfl := Option.some.inj (hpairs.table_eq.symm.trans ht)
  obtain rfl := Option.some.inj (hrange.table_eq.symm.trans hu)
  exact ⟨hpairs, hrange⟩

end Destack.Instruction
