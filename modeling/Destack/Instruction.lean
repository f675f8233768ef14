import Destack.InstructionSet
import Destack.Text.Hex

/-!
# Instructions

An instruction is an opcode with its operand bytes at an address. Numbers in the operands are big-endian, and
bytes past the end of the operands read as zero, so reading is total.
-/

namespace Destack

structure Instruction where
  /-- Address of the opcode byte. -/
  address : Nat
  opcode : Opcode
  /-- Operand bytes, the alignment padding of a switch included. -/
  operands : Array UInt8
  /-- Whether a basic block starts here. -/
  leader : Bool := false
deriving DecidableEq, Repr

/-- The jump table of a switch, with offsets from the address of the switch. -/
structure SwitchTable where
  default : Int
  /-- Keys and offsets in the order in which they are encoded. -/
  cases : List (Int × Int)
deriving DecidableEq, Repr

namespace Instruction

def category (i : Instruction) : Category :=
  i.opcode.category

/-- Encoded length in bytes. -/
def size (i : Instruction) : Nat :=
  1 + i.operands.size

/-- Address of the instruction that follows. -/
def next (i : Instruction) : Nat :=
  i.address + i.size

/-! ## Operands

A byte, a half (two bytes) or a word (four bytes) from a position on, unsigned or in two's complement. -/

def byteAt (i : Instruction) (pos : Nat) : Nat :=
  (i.operands[pos]?.getD 0).toNat

def signedByteAt (i : Instruction) (pos : Nat) : Int :=
  Int.bmod (i.byteAt pos) 256

def halfAt (i : Instruction) (pos : Nat) : Nat :=
  i.byteAt pos * 256 + i.byteAt (pos + 1)

def signedHalfAt (i : Instruction) (pos : Nat) : Int :=
  Int.bmod (i.halfAt pos) 65536

def signedWordAt (i : Instruction) (pos : Nat) : Int :=
  Int.bmod (i.halfAt pos * 65536 + i.halfAt (pos + 2)) 4294967296

/-! ## Switches and jumps -/

/-- Bytes between the opcode of a switch at an address and its table, which starts at a multiple of four. -/
def switchPadding (address : Nat) : Nat :=
  (4 - (address + 1) % 4) % 4

/-- The jump table, if the instruction is a switch. -/
def switchTable? (i : Instruction) : Option SwitchTable :=
  let base := switchPadding i.address
  if i.opcode = Opcode.tableswitch then
    let low := i.signedWordAt (base + 4)
    let high := i.signedWordAt (base + 8)
    let count := (high - low + 1).toNat
    some {
      default := i.signedWordAt base
      cases := (List.range count).map fun (k : Nat) => (low + k, i.signedWordAt (base + 12 + 4 * k)) }
  else if i.opcode = Opcode.lookupswitch then
    let count := (i.signedWordAt (base + 4)).toNat
    some {
      default := i.signedWordAt base
      cases := (List.range count).map fun (k : Nat) =>
        (i.signedWordAt (base + 8 + 8 * k), i.signedWordAt (base + 12 + 8 * k)) }
  else none

/-- Addresses that the instruction may jump to, in operand order. They need not be instructions. -/
def jumpTargets (i : Instruction) : List Int :=
  match i.category with
  | .conditionalBranch | .goto | .subroutine =>
    let offset :=
      if i.opcode = Opcode.gotoWide ∨ i.opcode = Opcode.jsrWide then i.signedWordAt 0 else i.signedHalfAt 0
    [i.address + offset]
  | .switch =>
    match i.switchTable? with
    | some table => (table.default :: table.cases.map (·.2)).map (i.address + ·)
    | none => []
  | _ => []

/-! ## The wide prefix -/

def isWide (i : Instruction) : Bool :=
  i.opcode = Opcode.wide

/-- The opcode that the instruction acts as, which a wide prefix takes from its first operand. -/
def effectiveOpcode (i : Instruction) : Opcode :=
  if i.isWide then i.operands[0]?.getD 0 else i.opcode

/-- Local slot in the operands. -/
def localIndex (i : Instruction) : Nat :=
  if i.isWide then i.halfAt 1 else i.byteAt 0

/-- Amount of an increment. -/
def increment (i : Instruction) : Int :=
  if i.isWide then i.signedHalfAt 3 else i.signedByteAt 1

/-! ## Text -/

/-- Text filled up with blanks on the left. -/
def padLeft (width : Nat) (s : String) : String :=
  String.ofList (List.replicate (width - s.length) ' ') ++ s

/-- Address, mnemonic, and the jump targets if there are any or else the operand bytes. -/
def render (i : Instruction) : String :=
  let targets := i.jumpTargets
  let tail :=
    if targets.isEmpty then String.join (i.operands.toList.map fun b => " " ++ Text.Hex.ofByte b)
    else " -> " ++ ", ".intercalate (targets.map toString)
  padLeft 5 (toString i.address) ++ ": " ++ i.opcode.mnemonic ++ tail

end Instruction

end Destack
