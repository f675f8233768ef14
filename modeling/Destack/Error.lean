import Destack.Opcode
import Destack.Text.Hex

/-!
# Errors

Every way in which a method can be refused, as a cause with the place where it was found. `Error.message` is
the only wording of each. The last cause, `absent`, is not about a method: it reports a request that names a
block, node or instruction that the graph does not hold.
-/

namespace Destack

/-- What is wrong with a descriptor. -/
inductive DescriptorFault where
  | missingOpen
  | badParameter
  | missingClose
  | badReturn
  | badField
deriving DecidableEq, Repr

def DescriptorFault.message : DescriptorFault → String
  | missingOpen => "missing '('"
  | badParameter => "bad parameter type"
  | missingClose => "missing ')'"
  | badReturn => "bad return type"
  | badField => "bad field type"

/-- Kinds of pool constant an instruction can ask for. -/
inductive ConstantKind where
  | field
  | method
  | literal
deriving DecidableEq, Repr

def ConstantKind.name : ConstantKind → String
  | field => "field reference"
  | method => "method reference"
  | literal => "int or string constant"

/-- What is wrong with the arrangement of the blocks. -/
inductive LayoutFault where
  | noInstructions
  /-- An empty block is last, so there is nothing to fall into. -/
  | noSuccessor (block : Nat)
  /-- Some blocks can only be entered against the direction of a loop. -/
  | irreducible (unreached total : Nat)
  | noPredecessors (block : Nat)
  | beforePredecessor (block pred : Nat)
  | joinBeforePredecessors (block : Nat)
  | headBeforePredecessors (block : Nat)
deriving DecidableEq, Repr

def LayoutFault.message : LayoutFault → String
  | noInstructions => "method has no instructions"
  | noSuccessor block => s!"empty block B{block} has no successor"
  | irreducible unreached total =>
    s!"irreducible control flow: {unreached} of {total} blocks not reachable along forward edges"
  | noPredecessors block => s!"B{block} has no predecessors"
  | beforePredecessor block pred => s!"B{block} entered before its only predecessor B{pred}"
  | joinBeforePredecessors block => s!"join B{block} entered before all of its predecessors"
  | headBeforePredecessors block => s!"loop head B{block} entered before any predecessor"

/-- What keeps a node from being turned into register instructions. -/
inductive LoweringFault where
  | notLowered (node : Nat)
  | noRegister (node : Nat)
  | mergeArity (node args block preds : Nat)
deriving DecidableEq, Repr

def LoweringFault.message : LoweringFault → String
  | notLowered node => s!"h{node} was not lowered"
  | noRegister node => s!"h{node} has no result register"
  | mergeArity node args block preds =>
    s!"merge h{node} has {args} arguments but B{block} has {preds} predecessors"

/-- A thing that a request names and the graph does not hold. -/
inductive Absent where
  | block (id : Nat)
  | node (id : Nat)
  | instruction (id : Nat)
deriving DecidableEq, Repr

def Absent.message : Absent → String
  | block id => s!"B{id} is not in the graph"
  | node id => s!"h{id} is not in the graph"
  | instruction id => s!"l{id} is not in the graph"

inductive Error where
  | unknownOpcode (opcode : Opcode) (address : Nat)
  | truncated (opcode : Opcode) (address : Nat)
  | invalidJump (address : Nat) (target : Int)
  | fallsOffEnd (address : Nat)
  | unsupported (opcode : Opcode) (address : Nat)
  | missingConstant (index : Nat)
  | unexpectedConstant (index : Nat) (expected : ConstantKind)
  | invalidDescriptor (text : String) (fault : DescriptorFault)
  | invalidLocal (index address : Nat)
  | stackUnderflow (address : Nat)
  | stackMismatch (block expected found : Nat)
  | unknownBlock (block : Nat)
  | layout (fault : LayoutFault)
  | lowering (fault : LoweringFault)
  | absent (what : Absent)
deriving DecidableEq, Repr

/-- An opcode as it is written in messages. -/
def Opcode.hex (op : Opcode) : String :=
  "0x" ++ Text.Hex.ofByte op

def Error.message : Error → String
  | unknownOpcode opcode address =>
    s!"No operand length entry for opcode {Opcode.hex opcode} at address {address}"
  | truncated opcode address =>
    s!"Instruction {Opcode.hex opcode} at address {address} runs past the end of the code"
  | invalidJump address target =>
    s!"Jump at address {address} targets {target}, which is not an instruction boundary"
  | fallsOffEnd address => s!"Control falls through past the last instruction at address {address}"
  | unsupported opcode address => s!"Unsupported instruction {Opcode.hex opcode} at address {address}"
  | missingConstant index => s!"Constant pool has no entry at index {index}"
  | unexpectedConstant index expected => s!"Constant pool entry {index} is not a {expected.name}"
  | invalidDescriptor text fault => s!"Invalid descriptor {Text.quoted text}: {fault.message}"
  | invalidLocal index address => s!"Local variable {index} at address {address} is outside the frame"
  | stackUnderflow address => s!"Operand stack underflow at address {address}"
  | stackMismatch block expected found =>
    s!"Operand stack depth mismatch entering block {block}: expected {expected}, found {found}"
  | unknownBlock block => s!"Block B{block} is not in the graph"
  | layout fault => s!"Block layout error: {fault.message}"
  | lowering fault => s!"Lowering failed: {fault.message}"
  | absent what => what.message

end Destack
