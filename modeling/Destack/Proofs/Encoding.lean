import Destack.Proofs.Decode

/-!
# Encoding

A list of instructions is well formed for an operand table when the instructions follow each other from address
zero and each has as many operand bytes as the table fixes for its opcode, or as its own payload prescribes if the
table leaves the number open. Encoding writes the opcode and the operand bytes of one instruction after the other.

Decoding is the inverse of encoding: code decodes to the one well-formed list that it encodes, if there is one
(`decode_eq_ok_iff`). Otherwise decoding stops at the first address at which no well-formed instruction stands, and
names the opcode there (`decode_eq_error`).
-/

namespace Destack

namespace Instruction

/-- The opcode and the operand bytes. -/
def bytes (i : Instruction) : List UInt8 :=
  i.opcode :: i.operands.toList

/-- The number of operand bytes is the one that the payload and the address prescribe: an aligned table for every
key from a low to a high one, an aligned list of pairs, or the operands of a local instruction widened. -/
inductive MeasuresItself (i : Instruction) : Prop
  | tableswitch (hop : i.opcode = Opcode.tableswitch)
      (hle : i.signedWordAt (switchPadding i.address + 4) ≤ i.signedWordAt (switchPadding i.address + 8))
      (hsize : (i.operands.size : Int) = switchPadding i.address + 12 +
        4 * (i.signedWordAt (switchPadding i.address + 8) - i.signedWordAt (switchPadding i.address + 4) + 1))
  | lookupswitch (hop : i.opcode = Opcode.lookupswitch)
      (hle : 0 ≤ i.signedWordAt (switchPadding i.address + 4))
      (hsize : (i.operands.size : Int) = switchPadding i.address + 8 +
        8 * i.signedWordAt (switchPadding i.address + 4))
  | wide (hop : i.opcode = Opcode.wide)
      (hsize : i.operands.size = if i.effectiveOpcode = Opcode.iinc then 5 else 3)

/-- The instruction has the operand bytes that a table asks for. -/
def Fits (table : OperandTable) (i : Instruction) : Prop :=
  match table i.opcode with
  | some (.fixed n) => i.operands.size = n
  | some .dynamic => i.MeasuresItself
  | none => False

end Instruction

/-- The bytes of instructions, one after the other. -/
def encode (is : List Instruction) : List UInt8 :=
  is.flatMap Instruction.bytes

/-- Instructions that follow each other from an address on and fit an operand table. -/
def WellFormed (table : OperandTable) (a : Nat) (is : List Instruction) : Prop :=
  Contiguous a is ∧ ∀ i ∈ is, i.Fits table

@[simp]
theorem encode_nil : encode [] = [] := rfl

@[simp]
theorem encode_cons (i : Instruction) (is : List Instruction) : encode (i :: is) = i.bytes ++ encode is := rfl

@[simp]
theorem encode_append (is js : List Instruction) : encode (is ++ js) = encode is ++ encode js :=
  List.flatMap_append ..

theorem wellFormed_nil {table : OperandTable} {a : Nat} : WellFormed table a [] :=
  ⟨trivial, by simp⟩

theorem wellFormed_cons {table : OperandTable} {a : Nat} {i : Instruction} {is : List Instruction} :
    WellFormed table a (i :: is) ↔
      i.address = a ∧ i.leader = false ∧ i.Fits table ∧ WellFormed table i.next is := by
  simp only [WellFormed, Contiguous, List.forall_mem_cons]
  tauto

/-- Code that follows starts where the encoded bytes before it end. -/
theorem wellFormed_append {table : OperandTable} {a : Nat} {is js : List Instruction} :
    WellFormed table a (is ++ js) ↔ WellFormed table a is ∧ WellFormed table (a + (encode is).length) js := by
  induction is generalizing a with
  | nil => simp [wellFormed_nil]
  | cons i is ih =>
    simp only [List.cons_append, wellFormed_cons, ih, and_assoc]
    refine and_congr_right fun haddr => and_congr_right fun _ => and_congr_right fun _ => and_congr_right fun _ => ?_
    have hend : i.next + (encode is).length = a + (encode (i :: is)).length := by
      simp only [← haddr, Instruction.next, Instruction.size, encode_cons, Instruction.bytes, List.length_append,
        List.length_cons, Array.length_toList]
      omega
    rw [hend]

/-! ## Operand bytes at the front of the code -/

theorem splitExactly?_eq_some_iff {α : Type} {n : Nat} {xs front rest : List α} :
    splitExactly? n xs = some (front, rest) ↔ xs = front ++ rest ∧ front.length = n := by
  induction n generalizing xs front with
  | zero =>
    simp only [splitExactly?, Option.some.injEq, Prod.mk.injEq, List.length_eq_zero_iff]
    constructor
    · rintro ⟨rfl, rfl⟩; simp
    · rintro ⟨rfl, rfl⟩; simp
  | succ n ih =>
    cases xs with
    | nil =>
      simp only [splitExactly?, reduceCtorEq, false_iff, not_and]
      intro h
      simp [(List.append_eq_nil_iff.1 h.symm).1]
    | cons x xs =>
      simp only [splitExactly?, Option.map_eq_some_iff, Prod.mk.injEq, Prod.exists]
      constructor
      · rintro ⟨front', rest', hin, rfl, rfl⟩
        obtain ⟨rfl, hlen⟩ := ih.1 hin
        simp [hlen]
      · rintro ⟨hxs, hlen⟩
        obtain ⟨y, front', rfl⟩ := List.exists_cons_of_length_eq_add_one hlen
        simp only [List.cons_append, List.cons.injEq] at hxs
        exact ⟨front', rest, ih.2 ⟨hxs.2, by simpa using hlen⟩, by rw [hxs.1], rfl⟩

theorem wordAt?_eq_some {bytes : List UInt8} {k : Nat} (h : k + 4 ≤ bytes.length) :
    wordAt? bytes k = some (Int.bmod ((((bytes[k]?.getD 0).toNat * 256 + (bytes[k + 1]?.getD 0).toNat) * 256 +
      (bytes[k + 2]?.getD 0).toNat) * 256 + (bytes[k + 3]?.getD 0).toNat) 4294967296) := by
  induction k generalizing bytes with
  | zero =>
    match bytes, h with
    | a :: b :: c :: d :: rest, _ => rfl
  | succ k ih =>
    match bytes, h with
    | a :: rest, h => exact ih (Nat.le_of_succ_le_succ (by simpa using h))

namespace Instruction

/-- A word inside the operands of an instruction is the word that stands in the code there. -/
theorem wordAt?_operands {i : Instruction} {k : Nat} (h : k + 4 ≤ i.operands.size) (rest : List UInt8) :
    wordAt? (i.operands.toList ++ rest) k = some (i.signedWordAt k) := by
  have hbyte : ∀ j < 4, ((i.operands.toList ++ rest)[k + j]?.getD 0).toNat = i.byteAt (k + j) := by
    intro j hj
    rw [List.getElem?_append_left (by simp; omega), byteAt, Array.getElem?_toList]
  have hfirst := hbyte 0 (by decide)
  rw [Nat.add_zero] at hfirst
  have hword : (((i.byteAt k : Int) * 256 + i.byteAt (k + 1)) * 256 + i.byteAt (k + 2)) * 256 + i.byteAt (k + 3) =
      (i.halfAt k : Int) * 65536 + i.halfAt (k + 2) := by
    simp only [halfAt, Nat.add_assoc, Nat.reduceAdd]
    omega
  unfold signedWordAt
  rw [← hword, ← hfirst, ← hbyte 1 (by decide), ← hbyte 2 (by decide), ← hbyte 3 (by decide)]
  exact wordAt?_eq_some (by simp; omega)

/-- The operand at the front of the code is what a wide instruction acts as. -/
theorem effectiveOpcode_of_wide {i : Instruction} (hop : i.opcode = Opcode.wide) {sub : UInt8}
    {rest : List UInt8} (h : i.operands.toList = sub :: rest) : i.effectiveOpcode = sub := by
  rw [effectiveOpcode, if_pos (by simpa [isWide] using hop), ← Array.getElem?_toList, h]
  rfl

section Measure

variable {i : Instruction} {rest : List UInt8}

theorem measure_tableswitch_iff (hop : i.opcode = Opcode.tableswitch) :
    measure i.address i.opcode (i.operands.toList ++ rest) = .ok i.operands.size ↔
      i.signedWordAt (switchPadding i.address + 4) ≤ i.signedWordAt (switchPadding i.address + 8) ∧
        (i.operands.size : Int) = switchPadding i.address + 12 +
          4 * (i.signedWordAt (switchPadding i.address + 8) - i.signedWordAt (switchPadding i.address + 4) + 1) := by
  unfold measure
  dsimp only
  rw [if_pos hop]
  constructor
  · intro h
    split at h
    · next low high hlow hhigh =>
      split at h
      · cases h
      · have hsize := Except.ok.inj h
        rw [wordAt?_operands (by omega), Option.some.injEq] at hlow hhigh
        subst hlow hhigh
        omega
    · cases h
  · rintro ⟨hle, hsize⟩
    rw [wordAt?_operands (by omega), wordAt?_operands (by omega)]
    simp only
    rw [if_neg (by omega), Except.ok.injEq]
    omega

theorem measure_lookupswitch_iff (hop : i.opcode = Opcode.lookupswitch) :
    measure i.address i.opcode (i.operands.toList ++ rest) = .ok i.operands.size ↔
      0 ≤ i.signedWordAt (switchPadding i.address + 4) ∧
        (i.operands.size : Int) = switchPadding i.address + 8 +
          8 * i.signedWordAt (switchPadding i.address + 4) := by
  unfold measure
  dsimp only
  rw [if_neg (by rw [hop]; decide), if_pos hop]
  constructor
  · intro h
    split at h
    · next pairs hpairs =>
      split at h
      · cases h
      · have hsize := Except.ok.inj h
        rw [wordAt?_operands (by omega), Option.some.injEq] at hpairs
        subst hpairs
        omega
    · cases h
  · rintro ⟨hle, hsize⟩
    rw [wordAt?_operands (by omega)]
    simp only
    rw [if_neg (by omega), Except.ok.injEq]
    omega

theorem measure_wide_iff (hop : i.opcode = Opcode.wide) :
    measure i.address i.opcode (i.operands.toList ++ rest) = .ok i.operands.size ↔
      i.operands.size = if i.effectiveOpcode = Opcode.iinc then 5 else 3 := by
  unfold measure
  rw [if_neg (by rw [hop]; decide), if_neg (by rw [hop]; decide), if_pos hop]
  cases hlist : i.operands.toList with
  | nil =>
    -- Bytes that come after the instruction do not make up for operands that it lacks.
    have hempty : i.operands.size = 0 := by rw [← Array.length_toList, hlist]; rfl
    rw [hempty, List.nil_append]
    cases rest <;> grind
  | cons sub operands =>
    rw [List.cons_append, effectiveOpcode_of_wide hop hlist, Except.ok.injEq, eq_comm]

/-- What the code prescribes for the operands at its front is what they prescribe themselves. -/
theorem measure_eq_ok_iff :
    measure i.address i.opcode (i.operands.toList ++ rest) = .ok i.operands.size ↔ i.MeasuresItself := by
  constructor
  · intro h
    by_cases htable : i.opcode = Opcode.tableswitch
    · obtain ⟨hle, hsize⟩ := (measure_tableswitch_iff htable).1 h
      exact .tableswitch htable hle hsize
    · by_cases hlookup : i.opcode = Opcode.lookupswitch
      · obtain ⟨hle, hsize⟩ := (measure_lookupswitch_iff hlookup).1 h
        exact .lookupswitch hlookup hle hsize
      · by_cases hwide : i.opcode = Opcode.wide
        · exact .wide hwide ((measure_wide_iff hwide).1 h)
        · simp [measure, htable, hlookup, hwide] at h
  · intro h
    cases h with
    | tableswitch hop hle hsize => exact (measure_tableswitch_iff hop).2 ⟨hle, hsize⟩
    | lookupswitch hop hle hsize => exact (measure_lookupswitch_iff hop).2 ⟨hle, hsize⟩
    | wide hop hsize => exact (measure_wide_iff hop).2 hsize

end Measure

theorem operandCount_eq_ok_iff {table : OperandTable} {i : Instruction} {rest : List UInt8} :
    operandCount table i.address i.opcode (i.operands.toList ++ rest) = .ok i.operands.size ↔ i.Fits table := by
  unfold operandCount Fits
  cases table i.opcode with
  | none => simp
  | some length =>
    cases length with
    | fixed n => simp [eq_comm]
    | dynamic => exact measure_eq_ok_iff

/-- Operands fit exactly if the code that starts with them asks for that many. -/
theorem fits_mk_iff {table : OperandTable} {a : Nat} {opcode : Opcode} {operands : List UInt8}
    (after : List UInt8) : Fits table ⟨a, opcode, operands.toArray, false⟩ ↔
      operandCount table a opcode (operands ++ after) = .ok operands.length := by
  have h := @operandCount_eq_ok_iff table ⟨a, opcode, operands.toArray, false⟩ after
  simpa using h.symm

theorem operandCount_eq_error {table : OperandTable} {a : Nat} {opcode : Opcode} {rest : List UInt8} {e : Error}
    (h : operandCount table a opcode rest = .error e) : e = .unknownOpcode opcode a ∨ e = .truncated opcode a := by
  unfold operandCount measure at h
  grind

/-- No operands fit at the front of code that cannot be measured. -/
theorem not_fits_of_operandCount {table : OperandTable} {a : Nat} {opcode : Opcode} {rest : List UInt8}
    {e : Error} (h : operandCount table a opcode rest = .error e) {operands : List UInt8} (hp : operands <+: rest) :
    ¬ Fits table ⟨a, opcode, operands.toArray, false⟩ := by
  obtain ⟨after, rfl⟩ := hp
  intro hfits
  rw [(fits_mk_iff _).1 hfits] at h
  cases h

/-- No operands fit at the front of code that is too short for them. -/
theorem not_fits_of_splitExactly? {table : OperandTable} {a n : Nat} {opcode : Opcode} {rest : List UInt8}
    (hcount : operandCount table a opcode rest = .ok n) (hsplit : splitExactly? n rest = none)
    {operands : List UInt8} (hp : operands <+: rest) : ¬ Fits table ⟨a, opcode, operands.toArray, false⟩ := by
  obtain ⟨after, rfl⟩ := hp
  intro hfits
  rw [(fits_mk_iff _).1 hfits] at hcount
  cases hcount
  rw [splitExactly?_eq_some_iff.2 ⟨rfl, rfl⟩] at hsplit
  cases hsplit

/-! ## Decoding -/

/-- Well-formed code with an opcode at its front: an instruction with that opcode, and well-formed code after its
operands. -/
theorem wellFormed_encode_eq_cons {table : OperandTable} {a : Nat} {is : List Instruction} {opcode : Opcode}
    {rest : List UInt8} : WellFormed table a is ∧ encode is = opcode :: rest ↔
      ∃ operands is', is = ⟨a, opcode, operands.toArray, false⟩ :: is' ∧ rest = operands ++ encode is' ∧
        Fits table ⟨a, opcode, operands.toArray, false⟩ ∧ WellFormed table (a + 1 + operands.length) is' := by
  have hnext : ∀ operands : List UInt8,
      (⟨a, opcode, operands.toArray, false⟩ : Instruction).next = a + 1 + operands.length := by
    intro operands
    simp only [next, size, List.size_toArray]
    omega
  constructor
  · rintro ⟨hwf, hcode⟩
    cases is with
    | nil => cases hcode
    | cons i is =>
      obtain ⟨rfl, hleader, hfits, hrest⟩ := wellFormed_cons.1 hwf
      obtain ⟨address, op, operands, leader⟩ := i
      simp only [encode_cons, bytes, List.cons_append, List.cons.injEq] at hcode
      obtain ⟨rfl, rfl⟩ := hcode
      cases hleader
      exact ⟨operands.toList, is, rfl, rfl, hfits, hnext _ ▸ hrest⟩
  · rintro ⟨operands, is, rfl, rfl, hfits, hrest⟩
    exact ⟨wellFormed_cons.2 ⟨rfl, rfl, hfits, (hnext _).symm ▸ hrest⟩, by simp [bytes]⟩

theorem decodeFrom_eq_ok_iff {table : OperandTable} {a : Nat} {seen is : List Instruction} {code : List UInt8} :
    decodeFrom table a seen code = .ok is ↔
      ∃ rest, is = seen.reverse ++ rest ∧ WellFormed table a rest ∧ encode rest = code := by
  fun_induction decodeFrom table a seen code with
  | case1 a seen =>
    constructor
    · intro h
      exact ⟨[], by simpa using (Except.ok.inj h).symm, wellFormed_nil, rfl⟩
    · rintro ⟨rest, rfl, -, hcode⟩
      cases rest with
      | nil => simp
      | cons i rest => cases hcode
  | case2 a seen opcode rest e hcount =>
    simp only [reduceCtorEq, wellFormed_encode_eq_cons, false_iff]
    rintro ⟨_, -, operands, is', -, rfl, hfits, -⟩
    exact not_fits_of_operandCount hcount (List.prefix_append ..) hfits
  | case3 a seen opcode rest count hcount hsplit =>
    simp only [reduceCtorEq, wellFormed_encode_eq_cons, false_iff]
    rintro ⟨_, -, operands, is', -, rfl, hfits, -⟩
    exact not_fits_of_splitExactly? hcount hsplit (List.prefix_append ..) hfits
  | case4 a seen opcode rest count hcount operands after hsplit hle ih =>
    obtain ⟨rfl, rfl⟩ := splitExactly?_eq_some_iff.1 hsplit
    rw [ih]
    simp only [wellFormed_encode_eq_cons]
    constructor
    · rintro ⟨is', rfl, hwf, rfl⟩
      exact ⟨_, by simp, operands, is', rfl, rfl, (fits_mk_iff _).2 hcount, hwf⟩
    · rintro ⟨_, rfl, operands', is', rfl, happend, hfits, hwf⟩
      have hsame := hcount
      rw [happend, (fits_mk_iff _).1 hfits, Except.ok.injEq] at hsame
      obtain ⟨rfl, rfl⟩ := List.append_inj happend hsame.symm
      exact ⟨is', by simp, hwf, rfl⟩

/-- Code decodes to the well-formed instructions that it encodes, and to no others. -/
theorem decode_eq_ok_iff {table : OperandTable} {code : List UInt8} {is : List Instruction} :
    decode table code = .ok is ↔ WellFormed table 0 is ∧ encode is = code := by
  rw [decode, decodeFrom_eq_ok_iff]
  simp

/-- Decoding fails behind the instructions that it could read, at an opcode whose operands the code does not give. -/
theorem decodeFrom_eq_error {table : OperandTable} {a : Nat} {seen : List Instruction} {code : List UInt8}
    {e : Error} (h : decodeFrom table a seen code = .error e) :
    ∃ is opcode rest, WellFormed table a is ∧ code = encode is ++ opcode :: rest ∧
      (e = .unknownOpcode opcode (a + (encode is).length) ∨ e = .truncated opcode (a + (encode is).length)) ∧
      ∀ operands, operands <+: rest →
        ¬ Fits table ⟨a + (encode is).length, opcode, operands.toArray, false⟩ := by
  fun_induction decodeFrom table a seen code with
  | case1 => cases h
  | case2 a seen opcode rest e' hcount =>
    cases h
    exact ⟨[], opcode, rest, wellFormed_nil, rfl, operandCount_eq_error hcount,
      fun _ hp => not_fits_of_operandCount hcount hp⟩
  | case3 a seen opcode rest count hcount hsplit =>
    cases h
    exact ⟨[], opcode, rest, wellFormed_nil, rfl, .inr rfl, fun _ hp => not_fits_of_splitExactly? hcount hsplit hp⟩
  | case4 a seen opcode rest count hcount operands after hsplit hle ih =>
    obtain ⟨rfl, rfl⟩ := splitExactly?_eq_some_iff.1 hsplit
    obtain ⟨is, op, rest, hwf, rfl, herr, hnot⟩ := ih h
    have hcons := wellFormed_encode_eq_cons.2
      ⟨operands, is, rfl, rfl, (fits_mk_iff (encode is ++ op :: rest)).2 hcount, hwf⟩
    have hat : a + (encode (⟨a, opcode, operands.toArray, false⟩ :: is)).length =
        a + 1 + operands.length + (encode is).length := by
      rw [hcons.2]
      simp only [List.length_cons, List.length_append]
      omega
    exact ⟨_, op, rest, hcons.1, by simp [hcons.2], hat ▸ herr, hat ▸ hnot⟩

/-- Decoding fails only where no well-formed instruction stands: the code before that address is well formed, and
nothing that the code has there extends it. -/
theorem decode_eq_error {table : OperandTable} {code : List UInt8} {e : Error} (h : decode table code = .error e) :
    ∃ a opcode is, (e = .unknownOpcode opcode a ∨ e = .truncated opcode a) ∧ code[a]? = some opcode ∧
      decode table (code.take a) = .ok is ∧ ∀ i, WellFormed table 0 (is ++ [i]) → ¬ encode (is ++ [i]) <+: code := by
  obtain ⟨is, opcode, rest, hwf, rfl, herr, hnot⟩ := decodeFrom_eq_error h
  rw [Nat.zero_add] at herr hnot
  refine ⟨(encode is).length, opcode, is, herr, by simp, ?_, ?_⟩
  · rw [List.take_left']
    · exact decode_eq_ok_iff.2 ⟨hwf, rfl⟩
    · rfl
  · intro i hi hp
    obtain ⟨haddr, hleader, hfits, -⟩ := wellFormed_cons.1 (wellFormed_append.1 hi).2
    obtain ⟨address, op, operands, leader⟩ := i
    simp only [Nat.zero_add] at haddr hleader
    subst haddr hleader
    rw [encode_append, List.prefix_append_right_inj, encode_cons, encode_nil, List.append_nil, bytes,
      List.cons_prefix_cons] at hp
    obtain ⟨rfl, hp⟩ := hp
    exact hnot operands.toList hp (by simpa using hfits)

/-- Decoding and encoding are inverse to each other: code decodes to exactly the well-formed instructions that it
encodes. Where it encodes none, decoding names the first address at which no well-formed instruction stands. -/
theorem decode_inverts_encode (table : OperandTable) (code : List UInt8) :
    (∀ is, decode table code = .ok is ↔ WellFormed table 0 is ∧ encode is = code) ∧
      ∀ e, decode table code = .error e → ∃ a opcode is,
        (e = .unknownOpcode opcode a ∨ e = .truncated opcode a) ∧ code[a]? = some opcode ∧
          decode table (code.take a) = .ok is ∧
            ∀ i, WellFormed table 0 (is ++ [i]) → ¬ encode (is ++ [i]) <+: code :=
  ⟨fun _ => decode_eq_ok_iff, fun _ => decode_eq_error⟩

/-- An aligned switch at address one whose high key is below its low one. -/
def crossedSwitch : List UInt8 :=
  [0x00, 0xaa, 0, 0, 0, 0, 0, 0, 0, 0, 0, 1, 0, 0, 0, 0]

theorem decode_crossedSwitch : decode .standard crossedSwitch = .error (.truncated 0xaa 1) := by
  decide +kernel

theorem crossedSwitch_decode_inverts_encode : decode .standard crossedSwitch = .error (.truncated 0xaa 1) ∧
    ∃ is, decode .standard [0x00] = .ok is ∧
      ∀ i, WellFormed .standard 0 (is ++ [i]) → ¬ encode (is ++ [i]) <+: crossedSwitch := by
  obtain ⟨a, opcode, is, herr, -, hdecode, hnot⟩ :=
    (decode_inverts_encode .standard crossedSwitch).2 _ decode_crossedSwitch
  obtain ⟨-, rfl⟩ : opcode = 0xaa ∧ a = 1 := by simpa [eq_comm] using herr
  exact ⟨decode_crossedSwitch, is, hdecode, hnot⟩

end Instruction

end Destack
