import Destack.Error
import Destack.Instruction

/-!
# Decoding

Code is cut into instructions from the front. An operand table says how many operand bytes follow each opcode;
the two switches and the wide prefix are measured from the bytes that follow them, and for a switch also from
its address, since its table is aligned.
-/

namespace Destack

/-- The big-endian signed word at an offset. -/
def wordAt? (bytes : List UInt8) (offset : Nat) : Option Int :=
  match bytes.drop offset with
  | a :: b :: c :: d :: _ =>
    some (Int.bmod (((a.toNat * 256 + b.toNat) * 256 + c.toNat) * 256 + d.toNat) 4294967296)
  | _ => none

/-- The first bytes and the rest, if there are enough. -/
def splitExactly? {α : Type} : Nat → List α → Option (List α × List α)
  | 0, xs => some ([], xs)
  | _ + 1, [] => none
  | n + 1, x :: xs => (splitExactly? n xs).map fun (front, rest) => (x :: front, rest)

theorem length_of_splitExactly? {α : Type} {n : Nat} {xs front rest : List α}
    (h : splitExactly? n xs = some (front, rest)) : rest.length ≤ xs.length := by
  induction n generalizing xs front rest with
  | zero =>
    simp only [splitExactly?, Option.some.injEq, Prod.mk.injEq] at h
    simp [h.2]
  | succ n ih =>
    cases xs with
    | nil => simp [splitExactly?] at h
    | cons x xs =>
      simp only [splitExactly?, Option.map_eq_some_iff, Prod.mk.injEq, Prod.exists] at h
      obtain ⟨_, _, hin, _, rfl⟩ := h
      have := ih hin
      simp only [List.length_cons]
      omega

namespace Instruction

/-- Operand bytes of a self-measuring instruction, given the bytes after its opcode. -/
def measure (address : Nat) (opcode : Opcode) (rest : List UInt8) : Except Error Nat :=
  let truncated : Except Error Nat := .error (.truncated opcode address)
  let padding := switchPadding address
  if opcode = Opcode.tableswitch then
    match wordAt? rest (padding + 4), wordAt? rest (padding + 8) with
    | some low, some high =>
      if high < low then truncated else .ok (padding + 12 + 4 * (high - low + 1).toNat)
    | _, _ => truncated
  else if opcode = Opcode.lookupswitch then
    match wordAt? rest (padding + 4) with
    | some pairs => if pairs < 0 then truncated else .ok (padding + 8 + 8 * pairs.toNat)
    | none => truncated
  else if opcode = Opcode.wide then
    match rest with
    | sub :: _ => .ok (if sub = Opcode.iinc then 5 else 3)
    | [] => truncated
  else .error (.unknownOpcode opcode address)

/-- Number of operand bytes of the instruction at an address. -/
def operandCount (table : OperandTable) (address : Nat) (opcode : Opcode) (rest : List UInt8) :
    Except Error Nat :=
  match table opcode with
  | some (.fixed n) => .ok n
  | some .dynamic => measure address opcode rest
  | none => .error (.unknownOpcode opcode address)

/-- Decodes code whose first byte is at an address. `seen` holds the instructions before it, last one first. -/
def decodeFrom (table : OperandTable) (address : Nat) (seen : List Instruction) (code : List UInt8) :
    Except Error (List Instruction) :=
  match code with
  | [] => .ok seen.reverse
  | opcode :: rest =>
    match operandCount table address opcode rest with
    | .error e => .error e
    | .ok count =>
      match h : splitExactly? count rest with
      | none => .error (.truncated opcode address)
      | some (operands, after) =>
        have := length_of_splitExactly? h
        decodeFrom table (address + 1 + count) ({ address, opcode, operands := operands.toArray } :: seen) after
termination_by code.length
decreasing_by simp only [List.length_cons]; omega

/-- The instructions of a whole method body. -/
def decode (table : OperandTable) (code : List UInt8) : Except Error (List Instruction) :=
  decodeFrom table 0 [] code

end Instruction

end Destack
