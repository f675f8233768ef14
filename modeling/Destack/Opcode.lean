/-!
# Opcodes

An opcode is the first byte of an instruction. This module holds the vocabulary in which the instruction
set describes its opcodes: how many operand bytes follow, what kind of control transfer the instruction is,
and what it does to the operand stack and the local slots.
-/

namespace Destack

abbrev Opcode := UInt8

/-- Number of operand bytes after an opcode. -/
inductive OperandLength where
  /-- Always this many bytes. -/
  | fixed (bytes : Nat)
  /-- Depends on the instruction's address or payload. -/
  | dynamic
deriving DecidableEq, Repr

/-- Operand lengths by opcode; an opcode without a length is not defined. -/
abbrev OperandTable := Opcode → Option OperandLength

/-- Kinds of control transfer. -/
inductive Category where
  | conditionalBranch
  | goto
  | subroutine
  | subroutineReturn
  | switch
  | methodReturn
  | raise
  | other
deriving DecidableEq, Repr

namespace Category

/-- Whether instructions of this kind name the addresses they may continue at. -/
def hasTargets : Category → Bool
  | conditionalBranch | goto | subroutine | switch => true
  | _ => false

/-- Whether instructions of this kind end a basic block. -/
def endsBlock : Category → Bool
  | other => false
  | _ => true

end Category

/-- Integer operations on two values. -/
inductive ArithOp where
  | add | sub | mul | div | rem | shl | shr | ushr | and | or | xor
deriving DecidableEq, Repr

namespace ArithOp

def all : List ArithOp :=
  [add, sub, mul, div, rem, shl, shr, ushr, and, or, xor]

def mnemonic : ArithOp → String
  | add => "add"
  | sub => "sub"
  | mul => "mul"
  | div => "div"
  | rem => "rem"
  | shl => "shl"
  | shr => "shr"
  | ushr => "ushr"
  | and => "and"
  | or => "or"
  | xor => "xor"

def ofMnemonic? (name : String) : Option ArithOp :=
  all.find? (·.mnemonic = name)

end ArithOp

/-- Comparisons of a left value with a right one. -/
inductive Condition where
  | eq | ne | lt | ge | gt | le
deriving DecidableEq, Repr

namespace Condition

def all : List Condition :=
  [eq, ne, lt, ge, gt, le]

def mnemonic : Condition → String
  | eq => "eq"
  | ne => "ne"
  | lt => "lt"
  | ge => "ge"
  | gt => "gt"
  | le => "le"

def ofMnemonic? (name : String) : Option Condition :=
  all.find? (·.mnemonic = name)

end Condition

/-- Kinds of call: a special call passes its receiver as the first argument. -/
inductive CallKind where
  | static
  | special
deriving DecidableEq, Repr

/-- What an opcode does to the frame, before its operand bytes are read. -/
inductive Effect where
  | nop
  | pushNull
  | pushInt (value : Int)
  /-- Push the signed operand byte. -/
  | pushByte
  /-- Push the signed operand pair. -/
  | pushShort
  /-- Push the constant whose index is the operand byte. -/
  | pushConstant
  /-- Push the constant whose index is the operand pair. -/
  | pushConstantWide
  /-- Push a local slot, given here or by the operand. -/
  | load (slot : Option Nat)
  /-- Pop into a local slot, given here or by the operand. -/
  | store (slot : Option Nat)
  | arrayLoadInt
  | arrayLoadReference
  | arrayStore
  | pop
  | dup
  | swap
  | arith (op : ArithOp)
  | negate
  | increment
  /-- Branch on the top value against zero. -/
  | branchZero (condition : Condition)
  /-- Branch on the two top values. -/
  | branchPair (condition : Condition)
  /-- Branch on the top reference against null. -/
  | branchNull (condition : Condition)
  | jump
  | switch
  | returnValue
  | returnVoid
  | raise
  | getStatic
  | putStatic
  | call (kind : CallKind)
deriving DecidableEq, Repr

namespace Effect

/-- The operation of a binary arithmetic effect. -/
def arith? : Effect → Option ArithOp
  | arith op => some op
  | _ => none

/-- The comparison of a branching effect. -/
def condition? : Effect → Option Condition
  | branchZero c | branchPair c | branchNull c => some c
  | _ => none

end Effect

end Destack
