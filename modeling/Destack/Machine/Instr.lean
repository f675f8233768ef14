import Destack.ConstantPool
import Destack.Frame
import Destack.Opcode
import Destack.Register

/-!
# Register instructions

An instruction of the machine reads a list of registers and writes at most one. The operation says what is done
with them. Instructions are kept in a table, where each carries a number of its own.
-/

namespace Destack.Machine

inductive Op where
  /-- The written register gets the value of the one that is read. -/
  | move
  | loadConst (value : Int)
  /-- Address of a label in the data segment. -/
  | loadAddress (label : String)
  | binary (op : ArithOp)
  | negate
  | loadStatic (field : Member)
  | storeStatic (field : Member)
  /-- Load from the sum of the two registers read. -/
  | load
  /-- Store the third register read at the sum of the first two. -/
  | store
  /-- Load an incoming argument from the stack. -/
  | loadStack (offset : Int)
  /-- Store an outgoing argument on the stack. -/
  | storeStack (offset : Int)
  | call (method : Member)
  | jump (target : BlockId)
  | branch (condition : Condition) (taken fallthrough : BlockId)
  | switch (default : BlockId) (cases : List (Int × BlockId))
  | ret
  | raise
deriving DecidableEq, Repr

namespace Op

/-- Whether the operation continues at a block that it names. -/
def isJump : Op → Bool
  | jump .. | branch .. | switch .. => true
  | _ => false

/-- Whether the operation ends a block. -/
def isControl : Op → Bool
  | ret | raise => true
  | op => op.isJump

/-- Blocks that the operation may continue at. -/
def targets : Op → List BlockId
  | jump target => [target]
  | branch _ taken fallthrough => [taken, fallthrough]
  | switch default cases => default :: cases.map (·.2)
  | _ => []

def mnemonic : Op → String
  | move => "mov"
  | loadConst .. => "ldi"
  | loadAddress .. => "adr"
  | binary op => op.mnemonic
  | negate => "neg"
  | loadStatic .. => "ldsf"
  | storeStatic .. => "stsf"
  | load => "ld"
  | store => "st"
  | loadStack .. => "ldsp"
  | storeStack .. => "stsp"
  | call .. => "call"
  | jump .. => "jmp"
  | branch condition .. => condition.mnemonic
  | switch .. => "switch"
  | ret => "ret"
  | raise => "throw"

/-- Operands other than registers, if the operation has any. -/
def immediate? : Op → Option String
  | loadConst value => some s!"#{value}"
  | loadAddress label => some label
  | loadStatic member | storeStatic member | call member => some member.render
  | loadStack offset | storeStack offset => some s!"[sp + {offset}]"
  | jump target => some s!"B{target}"
  | branch _ taken fallthrough => some s!"B{taken} else B{fallthrough}"
  | switch default cases =>
    some (s!"default B{default}" ++ String.join (cases.map fun (key, target) => s!", {key} => B{target}"))
  | _ => none

end Op

structure Instr where
  op : Op
  reads : List Register
  write : Option Register
deriving DecidableEq, Repr

namespace Instr

def isMove (i : Instr) : Bool :=
  i.op = .move

/-- Replaces every register that the instruction names. -/
def mapRegisters (f : Register → Register) (i : Instr) : Instr :=
  { i with reads := i.reads.map f, write := i.write.map f }

end Instr

/-- An instruction with the number that it carries. -/
structure Line where
  id : InstrId
  instr : Instr
deriving DecidableEq, Repr

namespace Line

/-- An instruction as it is written in listings. -/
def render (l : Line) : String :=
  let target := l.instr.write.elim "" fun r => r.render ++ " = "
  let operands := l.instr.reads.map (·.render) ++ l.instr.op.immediate?.toList
  let tail := if operands.isEmpty then "" else " " ++ ", ".intercalate operands
  s!"l{l.id}: " ++ target ++ l.instr.op.mnemonic ++ tail

/-- Changes the instruction and keeps the number. -/
def modify (f : Instr → Instr) (l : Line) : Line :=
  { l with instr := f l.instr }

end Line

/-- Instructions under consecutive numbers. -/
def numbered (first : InstrId) (is : List Instr) : List Line :=
  is.mapIdx fun k i => ⟨first + k, i⟩

end Destack.Machine
