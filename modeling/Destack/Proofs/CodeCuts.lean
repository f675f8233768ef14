import Destack.Proofs.Encoding

/-!
# Cuts in code

Code that decodes and whose length is a multiple of four can be cut off from the code behind it: the rest decodes as it
would on its own, and what comes of it, the instructions or the error, stands as many bytes later (`decode_append`).
The length matters because a switch is aligned by its address. No other instruction depends on where it stands.
-/

namespace Destack

/-- The error of a decoder that started some bytes later. -/
def Error.shift (n : Nat) : Error → Error
  | unknownOpcode opcode address => unknownOpcode opcode (address + n)
  | truncated opcode address => truncated opcode (address + n)
  | e => e

namespace Instruction

/-- The same instruction some bytes later. -/
def shift (n : Nat) (i : Instruction) : Instruction :=
  { i with address := i.address + n }

/-- What decoding gives behind some instructions and some bytes later than at address zero. -/
def resume (before : List Instruction) (n : Nat) : Except Error (List Instruction) → Except Error (List Instruction)
  | .ok is => .ok (before ++ is.map (shift n))
  | .error e => .error (e.shift n)

/-! ## Steps of the decoder -/

section Steps

variable {table : OperandTable} {a n : Nat} {seen : List Instruction} {opcode : Opcode} {rest : List UInt8}

theorem decodeFrom_of_operandCount_error {e : Error} (h : operandCount table a opcode rest = .error e) :
    decodeFrom table a seen (opcode :: rest) = .error e := by
  rw [decodeFrom, h]

theorem decodeFrom_of_splitExactly?_none (hcount : operandCount table a opcode rest = .ok n)
    (hsplit : splitExactly? n rest = none) :
    decodeFrom table a seen (opcode :: rest) = .error (.truncated opcode a) := by
  rw [decodeFrom, hcount]
  dsimp only
  split
  · rfl
  · next hsome =>
    rw [hsplit] at hsome
    cases hsome

theorem decodeFrom_of_splitExactly? {operands after : List UInt8}
    (hcount : operandCount table a opcode rest = .ok n) (hsplit : splitExactly? n rest = some (operands, after)) :
    decodeFrom table a seen (opcode :: rest) =
      decodeFrom table (a + 1 + n) ({ address := a, opcode, operands := operands.toArray } :: seen) after := by
  rw [decodeFrom, hcount]
  dsimp only
  split
  · next hnone =>
    rw [hsplit] at hnone
    cases hnone
  · next operands' after' hsome =>
    rw [hsplit] at hsome
    cases hsome
    rfl

/-- An instruction at the front of the code is cut off. -/
theorem decodeFrom_bytes {i : Instruction} (hleader : i.leader = false) (hfits : i.Fits table) :
    decodeFrom table i.address seen (i.bytes ++ rest) = decodeFrom table i.next (i :: seen) rest := by
  have hsplit : splitExactly? i.operands.size (i.operands.toList ++ rest) = some (i.operands.toList, rest) :=
    splitExactly?_eq_some_iff.2 ⟨rfl, Array.length_toList⟩
  rw [bytes, List.cons_append, decodeFrom_of_splitExactly? (operandCount_eq_ok_iff.2 hfits) hsplit, ← hleader,
    Nat.add_assoc]
  rfl

/-- Well-formed instructions at the front of the code are cut off, one after the other. -/
theorem decodeFrom_encode {is : List Instruction} (h : WellFormed table a is) :
    decodeFrom table a seen (encode is ++ rest) =
      decodeFrom table (a + (encode is).length) (is.reverse ++ seen) rest := by
  induction is generalizing a seen with
  | nil => rfl
  | cons i is ih =>
    obtain ⟨rfl, hleader, hfits, hwf⟩ := wellFormed_cons.1 h
    have hend : i.next + (encode is).length = i.address + (encode (i :: is)).length := by
      simp only [next, size, encode_cons, bytes, List.length_append, List.length_cons, Array.length_toList]
      omega
    rw [encode_cons, List.append_assoc, decodeFrom_bytes hleader hfits, ih hwf, hend, List.reverse_cons,
      List.append_assoc]
    rfl

end Steps

/-! ## Code that stands later -/

section Later

variable {table : OperandTable} {n : Nat}

/-- Padding depends on the address only up to a multiple of four. -/
theorem switchPadding_add (h : 4 ∣ n) (a : Nat) : switchPadding (a + n) = switchPadding a := by
  unfold switchPadding
  omega

theorem measure_add (h : 4 ∣ n) (a : Nat) (opcode : Opcode) (rest : List UInt8) :
    measure (a + n) opcode rest = (measure a opcode rest).mapError (Error.shift n) := by
  unfold measure
  rw [switchPadding_add h]
  dsimp only
  split_ifs
  · split
    · split_ifs <;> rfl
    · rfl
  · split
    · split_ifs <;> rfl
    · rfl
  · split <;> rfl
  · rfl

theorem operandCount_add (h : 4 ∣ n) (a : Nat) (opcode : Opcode) (rest : List UInt8) :
    operandCount table (a + n) opcode rest = (operandCount table a opcode rest).mapError (Error.shift n) := by
  unfold operandCount
  cases table opcode with
  | none => rfl
  | some length =>
    cases length with
    | fixed k => rfl
    | dynamic => exact measure_add h a opcode rest

theorem decodeFrom_add (h : 4 ∣ n) (before : List Instruction) (a : Nat) (seen : List Instruction)
    (code : List UInt8) : decodeFrom table (a + n) (seen.map (shift n) ++ before) code =
      resume before.reverse n (decodeFrom table a seen code) := by
  fun_induction decodeFrom table a seen code with
  | case1 a seen =>
    rw [decodeFrom, resume, List.reverse_append, List.map_reverse]
  | case2 a seen opcode rest e hcount =>
    refine decodeFrom_of_operandCount_error ?_
    rw [operandCount_add h, hcount]
    rfl
  | case3 a seen opcode rest count hcount hsplit =>
    refine decodeFrom_of_splitExactly?_none ?_ hsplit
    rw [operandCount_add h, hcount]
    rfl
  | case4 a seen opcode rest count hcount operands after hsplit hle ih =>
    have hcount' : operandCount table (a + n) opcode rest = .ok count := by
      rw [operandCount_add h, hcount]
      rfl
    rw [decodeFrom_of_splitExactly? hcount' hsplit, ← ih, show a + 1 + count + n = a + n + 1 + count by omega]
    rfl

end Later

/-- Behind code that decodes and whose length is a multiple of four, decoding goes on as if it started afresh. -/
theorem decode_append {table : OperandTable} {code : List UInt8} {is : List Instruction}
    (h : decode table code = .ok is) (hlength : 4 ∣ code.length) (rest : List UInt8) :
    decode table (code ++ rest) = resume is code.length (decode table rest) := by
  obtain ⟨hwf, rfl⟩ := decode_eq_ok_iff.1 h
  calc decode table (encode is ++ rest)
    _ = decodeFrom table (0 + (encode is).length) (is.reverse ++ []) rest := decodeFrom_encode hwf
    _ = decodeFrom table (0 + (encode is).length) ([].map (shift (encode is).length) ++ is.reverse) rest := by simp
    _ = resume is.reverse.reverse (encode is).length (decode table rest) := decodeFrom_add hlength ..
    _ = resume is (encode is).length (decode table rest) := by rw [List.reverse_reverse]

/-- Decoding is compositional at aligned cuts. Behind code that decodes and whose length is a multiple of four, the rest
decodes exactly if it does on its own, and then the instructions are those of the front and those of the rest moved
behind it. If the rest does not decode, the error is the one that it gives on its own, moved as well: there is no opcode
of that number or its operands are cut short. -/
theorem decode_compositional_at_aligned_cut {table : OperandTable} {code : List UInt8} {is : List Instruction}
    (h : decode table code = .ok is) (hlength : 4 ∣ code.length) (rest : List UInt8) :
    ((∃ js, decode table (code ++ rest) = .ok js) ↔ ∃ js, decode table rest = .ok js) ∧
      (∀ js, decode table rest = .ok js →
        decode table (code ++ rest) = .ok (is ++ js.map fun j => { j with address := j.address + code.length })) ∧
      ∀ e, decode table rest = .error e → ∃ opcode a,
        (e = .unknownOpcode opcode a ∧ decode table (code ++ rest) = .error (.unknownOpcode opcode (a + code.length))) ∨
        (e = .truncated opcode a ∧ decode table (code ++ rest) = .error (.truncated opcode (a + code.length))) := by
  rw [decode_append h hlength]
  refine ⟨?_, ?_, ?_⟩
  · cases decode table rest with
    | ok js => exact iff_of_true ⟨_, rfl⟩ ⟨_, rfl⟩
    | error e => simp [resume]
  · intro js hjs
    rw [hjs]
    rfl
  · intro e he
    rw [he]
    obtain ⟨a, opcode, -, rfl | rfl, -⟩ := decode_eq_error he
    · exact ⟨opcode, a, .inl ⟨rfl, rfl⟩⟩
    · exact ⟨opcode, a, .inr ⟨rfl, rfl⟩⟩

/-- Four instructions of one byte each. -/
def fourBytes : List UInt8 :=
  [0x03, 0x3c, 0x00, 0x00]

theorem decode_fourBytes : decode .standard fourBytes =
    .ok [⟨0, 0x03, #[], false⟩, ⟨1, 0x3c, #[], false⟩, ⟨2, 0x00, #[], false⟩, ⟨3, 0x00, #[], false⟩] := by
  decide +kernel

/-- A switch over one key at address one, and a return behind it. -/
def smallSwitch : List UInt8 :=
  [0x1b, 0xaa, 0, 0, 0, 0, 0, 19, 0, 0, 0, 0, 0, 0, 0, 0, 0, 0, 0, 19, 0xb1]

theorem decode_smallSwitch : decode .standard smallSwitch =
    .ok [⟨0, 0x1b, #[], false⟩,
      ⟨1, 0xaa, #[0, 0, 0, 0, 0, 19, 0, 0, 0, 0, 0, 0, 0, 0, 0, 0, 0, 19], false⟩, ⟨20, 0xb1, #[], false⟩] := by
  decide +kernel

theorem fourBytes_decode_compositional : 4 ∣ fourBytes.length ∧
    decode .standard (fourBytes ++ smallSwitch) =
      .ok [⟨0, 0x03, #[], false⟩, ⟨1, 0x3c, #[], false⟩, ⟨2, 0x00, #[], false⟩, ⟨3, 0x00, #[], false⟩,
        ⟨4, 0x1b, #[], false⟩, ⟨5, 0xaa, #[0, 0, 0, 0, 0, 19, 0, 0, 0, 0, 0, 0, 0, 0, 0, 0, 0, 19], false⟩,
        ⟨24, 0xb1, #[], false⟩] ∧
    decode .standard (fourBytes ++ crossedSwitch) = .error (.truncated 0xaa 5) := by
  have hlength : 4 ∣ fourBytes.length := by decide
  obtain ⟨-, hok, -⟩ := decode_compositional_at_aligned_cut decode_fourBytes hlength smallSwitch
  obtain ⟨-, -, herror⟩ := decode_compositional_at_aligned_cut decode_fourBytes hlength crossedSwitch
  obtain ⟨opcode, a, ⟨he, -⟩ | ⟨he, hmoved⟩⟩ := herror _ decode_crossedSwitch
  · cases he
  · cases he
    exact ⟨hlength, hok _ decode_smallSwitch, hmoved⟩

end Instruction

end Destack
