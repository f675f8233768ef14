import Destack.Instruction

/-!
# Actions

An action is what an instruction asks of a frame, with its operands already read: the wide prefix is looked
through, and slots, constants and pool indices are plain numbers. Jump targets stay with the instruction.
-/

namespace Destack

inductive Action where
  | nop
  | pushNull
  | pushInt (value : Int)
  | pushConstant (index : Nat)
  | load (slot : Nat)
  | store (slot : Nat)
  | arrayLoadInt
  | arrayLoadReference
  | arrayStore
  | pop
  | dup
  | swap
  | arith (op : ArithOp)
  | negate
  | increment (slot : Nat) (amount : Int)
  | branchZero (condition : Condition)
  | branchPair (condition : Condition)
  | branchNull (condition : Condition)
  | jump
  | switch
  | returnValue
  | returnVoid
  | raise
  | getStatic (index : Nat)
  | putStatic (index : Nat)
  | call (kind : CallKind) (index : Nat)
deriving DecidableEq, Repr

namespace Instruction

/-- An effect with its operands read from an instruction. Only local slots and increments have a wide form;
every other operand is read from the first operand byte on. -/
def act (i : Instruction) : Effect → Action
  | .nop => .nop
  | .pushNull => .pushNull
  | .pushInt value => .pushInt value
  | .pushByte => .pushInt (i.signedByteAt 0)
  | .pushShort => .pushInt (i.signedHalfAt 0)
  | .pushConstant => .pushConstant (i.byteAt 0)
  | .pushConstantWide => .pushConstant (i.halfAt 0)
  | .load slot => .load (slot.getD i.localIndex)
  | .store slot => .store (slot.getD i.localIndex)
  | .arrayLoadInt => .arrayLoadInt
  | .arrayLoadReference => .arrayLoadReference
  | .arrayStore => .arrayStore
  | .pop => .pop
  | .dup => .dup
  | .swap => .swap
  | .arith op => .arith op
  | .negate => .negate
  | .increment => .increment i.localIndex i.increment
  | .branchZero c => .branchZero c
  | .branchPair c => .branchPair c
  | .branchNull c => .branchNull c
  | .jump => .jump
  | .switch => .switch
  | .returnValue => .returnValue
  | .returnVoid => .returnVoid
  | .raise => .raise
  | .getStatic => .getStatic (i.halfAt 0)
  | .putStatic => .putStatic (i.halfAt 0)
  | .call kind => .call kind (i.halfAt 0)

/-- What an instruction does, if the compiler can translate it. -/
def action? (i : Instruction) : Option Action :=
  i.effectiveOpcode.effect?.map i.act

end Instruction

end Destack
