import Destack.Opcode

/-!
# The instruction set

One row for each defined opcode, in the order of the opcode bytes: its mnemonic, its operand length, its
control-transfer category, and its effect if the compiler can translate it.
-/

namespace Destack

/-- Static facts about one opcode. -/
structure InstructionSet.Row where
  mnemonic : String
  operands : OperandLength
  category : Category
  /-- Missing if the instruction is measured and laid out but cannot be translated. -/
  effect : Option Effect
deriving DecidableEq, Repr

/-- The rows of opcodes `0x00` to `0xc9`. -/
def InstructionSet.rows : Array InstructionSet.Row := #[
  -- 0x00
  ⟨"nop", .fixed 0, .other, some .nop⟩,
  ⟨"aconst_null", .fixed 0, .other, some .pushNull⟩,
  ⟨"iconst_m1", .fixed 0, .other, some (.pushInt (-1))⟩,
  ⟨"iconst_0", .fixed 0, .other, some (.pushInt 0)⟩,
  ⟨"iconst_1", .fixed 0, .other, some (.pushInt 1)⟩,
  ⟨"iconst_2", .fixed 0, .other, some (.pushInt 2)⟩,
  ⟨"iconst_3", .fixed 0, .other, some (.pushInt 3)⟩,
  ⟨"iconst_4", .fixed 0, .other, some (.pushInt 4)⟩,
  ⟨"iconst_5", .fixed 0, .other, some (.pushInt 5)⟩,
  ⟨"lconst_0", .fixed 0, .other, none⟩,
  ⟨"lconst_1", .fixed 0, .other, none⟩,
  ⟨"fconst_0", .fixed 0, .other, none⟩,
  ⟨"fconst_1", .fixed 0, .other, none⟩,
  ⟨"fconst_2", .fixed 0, .other, none⟩,
  ⟨"dconst_0", .fixed 0, .other, none⟩,
  ⟨"dconst_1", .fixed 0, .other, none⟩,
  -- 0x10
  ⟨"bipush", .fixed 1, .other, some .pushByte⟩,
  ⟨"sipush", .fixed 2, .other, some .pushShort⟩,
  ⟨"ldc", .fixed 1, .other, some .pushConstant⟩,
  ⟨"ldc_w", .fixed 2, .other, some .pushConstantWide⟩,
  ⟨"ldc2_w", .fixed 2, .other, none⟩,
  ⟨"iload", .fixed 1, .other, some (.load none)⟩,
  ⟨"lload", .fixed 1, .other, none⟩,
  ⟨"fload", .fixed 1, .other, none⟩,
  ⟨"dload", .fixed 1, .other, none⟩,
  ⟨"aload", .fixed 1, .other, some (.load none)⟩,
  ⟨"iload_0", .fixed 0, .other, some (.load (some 0))⟩,
  ⟨"iload_1", .fixed 0, .other, some (.load (some 1))⟩,
  ⟨"iload_2", .fixed 0, .other, some (.load (some 2))⟩,
  ⟨"iload_3", .fixed 0, .other, some (.load (some 3))⟩,
  ⟨"lload_0", .fixed 0, .other, none⟩,
  ⟨"lload_1", .fixed 0, .other, none⟩,
  -- 0x20
  ⟨"lload_2", .fixed 0, .other, none⟩,
  ⟨"lload_3", .fixed 0, .other, none⟩,
  ⟨"fload_0", .fixed 0, .other, none⟩,
  ⟨"fload_1", .fixed 0, .other, none⟩,
  ⟨"fload_2", .fixed 0, .other, none⟩,
  ⟨"fload_3", .fixed 0, .other, none⟩,
  ⟨"dload_0", .fixed 0, .other, none⟩,
  ⟨"dload_1", .fixed 0, .other, none⟩,
  ⟨"dload_2", .fixed 0, .other, none⟩,
  ⟨"dload_3", .fixed 0, .other, none⟩,
  ⟨"aload_0", .fixed 0, .other, some (.load (some 0))⟩,
  ⟨"aload_1", .fixed 0, .other, some (.load (some 1))⟩,
  ⟨"aload_2", .fixed 0, .other, some (.load (some 2))⟩,
  ⟨"aload_3", .fixed 0, .other, some (.load (some 3))⟩,
  ⟨"iaload", .fixed 0, .other, some .arrayLoadInt⟩,
  ⟨"laload", .fixed 0, .other, none⟩,
  -- 0x30
  ⟨"faload", .fixed 0, .other, none⟩,
  ⟨"daload", .fixed 0, .other, none⟩,
  ⟨"aaload", .fixed 0, .other, some .arrayLoadReference⟩,
  ⟨"baload", .fixed 0, .other, none⟩,
  ⟨"caload", .fixed 0, .other, none⟩,
  ⟨"saload", .fixed 0, .other, none⟩,
  ⟨"istore", .fixed 1, .other, some (.store none)⟩,
  ⟨"lstore", .fixed 1, .other, none⟩,
  ⟨"fstore", .fixed 1, .other, none⟩,
  ⟨"dstore", .fixed 1, .other, none⟩,
  ⟨"astore", .fixed 1, .other, some (.store none)⟩,
  ⟨"istore_0", .fixed 0, .other, some (.store (some 0))⟩,
  ⟨"istore_1", .fixed 0, .other, some (.store (some 1))⟩,
  ⟨"istore_2", .fixed 0, .other, some (.store (some 2))⟩,
  ⟨"istore_3", .fixed 0, .other, some (.store (some 3))⟩,
  ⟨"lstore_0", .fixed 0, .other, none⟩,
  -- 0x40
  ⟨"lstore_1", .fixed 0, .other, none⟩,
  ⟨"lstore_2", .fixed 0, .other, none⟩,
  ⟨"lstore_3", .fixed 0, .other, none⟩,
  ⟨"fstore_0", .fixed 0, .other, none⟩,
  ⟨"fstore_1", .fixed 0, .other, none⟩,
  ⟨"fstore_2", .fixed 0, .other, none⟩,
  ⟨"fstore_3", .fixed 0, .other, none⟩,
  ⟨"dstore_0", .fixed 0, .other, none⟩,
  ⟨"dstore_1", .fixed 0, .other, none⟩,
  ⟨"dstore_2", .fixed 0, .other, none⟩,
  ⟨"dstore_3", .fixed 0, .other, none⟩,
  ⟨"astore_0", .fixed 0, .other, some (.store (some 0))⟩,
  ⟨"astore_1", .fixed 0, .other, some (.store (some 1))⟩,
  ⟨"astore_2", .fixed 0, .other, some (.store (some 2))⟩,
  ⟨"astore_3", .fixed 0, .other, some (.store (some 3))⟩,
  ⟨"iastore", .fixed 0, .other, some .arrayStore⟩,
  -- 0x50
  ⟨"lastore", .fixed 0, .other, none⟩,
  ⟨"fastore", .fixed 0, .other, none⟩,
  ⟨"dastore", .fixed 0, .other, none⟩,
  ⟨"aastore", .fixed 0, .other, some .arrayStore⟩,
  ⟨"bastore", .fixed 0, .other, none⟩,
  ⟨"castore", .fixed 0, .other, none⟩,
  ⟨"sastore", .fixed 0, .other, none⟩,
  ⟨"pop", .fixed 0, .other, some .pop⟩,
  ⟨"pop2", .fixed 0, .other, none⟩,
  ⟨"dup", .fixed 0, .other, some .dup⟩,
  ⟨"dup_x1", .fixed 0, .other, none⟩,
  ⟨"dup_x2", .fixed 0, .other, none⟩,
  ⟨"dup2", .fixed 0, .other, none⟩,
  ⟨"dup2_x1", .fixed 0, .other, none⟩,
  ⟨"dup2_x2", .fixed 0, .other, none⟩,
  ⟨"swap", .fixed 0, .other, some .swap⟩,
  -- 0x60
  ⟨"iadd", .fixed 0, .other, some (.arith .add)⟩,
  ⟨"ladd", .fixed 0, .other, none⟩,
  ⟨"fadd", .fixed 0, .other, none⟩,
  ⟨"dadd", .fixed 0, .other, none⟩,
  ⟨"isub", .fixed 0, .other, some (.arith .sub)⟩,
  ⟨"lsub", .fixed 0, .other, none⟩,
  ⟨"fsub", .fixed 0, .other, none⟩,
  ⟨"dsub", .fixed 0, .other, none⟩,
  ⟨"imul", .fixed 0, .other, some (.arith .mul)⟩,
  ⟨"lmul", .fixed 0, .other, none⟩,
  ⟨"fmul", .fixed 0, .other, none⟩,
  ⟨"dmul", .fixed 0, .other, none⟩,
  ⟨"idiv", .fixed 0, .other, some (.arith .div)⟩,
  ⟨"ldiv", .fixed 0, .other, none⟩,
  ⟨"fdiv", .fixed 0, .other, none⟩,
  ⟨"ddiv", .fixed 0, .other, none⟩,
  -- 0x70
  ⟨"irem", .fixed 0, .other, some (.arith .rem)⟩,
  ⟨"lrem", .fixed 0, .other, none⟩,
  ⟨"frem", .fixed 0, .other, none⟩,
  ⟨"drem", .fixed 0, .other, none⟩,
  ⟨"ineg", .fixed 0, .other, some .negate⟩,
  ⟨"lneg", .fixed 0, .other, none⟩,
  ⟨"fneg", .fixed 0, .other, none⟩,
  ⟨"dneg", .fixed 0, .other, none⟩,
  ⟨"ishl", .fixed 0, .other, some (.arith .shl)⟩,
  ⟨"lshl", .fixed 0, .other, none⟩,
  ⟨"ishr", .fixed 0, .other, some (.arith .shr)⟩,
  ⟨"lshr", .fixed 0, .other, none⟩,
  ⟨"iushr", .fixed 0, .other, some (.arith .ushr)⟩,
  ⟨"lushr", .fixed 0, .other, none⟩,
  ⟨"iand", .fixed 0, .other, some (.arith .and)⟩,
  ⟨"land", .fixed 0, .other, none⟩,
  -- 0x80
  ⟨"ior", .fixed 0, .other, some (.arith .or)⟩,
  ⟨"lor", .fixed 0, .other, none⟩,
  ⟨"ixor", .fixed 0, .other, some (.arith .xor)⟩,
  ⟨"lxor", .fixed 0, .other, none⟩,
  ⟨"iinc", .fixed 2, .other, some .increment⟩,
  ⟨"i2l", .fixed 0, .other, none⟩,
  ⟨"i2f", .fixed 0, .other, none⟩,
  ⟨"i2d", .fixed 0, .other, none⟩,
  ⟨"l2i", .fixed 0, .other, none⟩,
  ⟨"l2f", .fixed 0, .other, none⟩,
  ⟨"l2d", .fixed 0, .other, none⟩,
  ⟨"f2i", .fixed 0, .other, none⟩,
  ⟨"f2l", .fixed 0, .other, none⟩,
  ⟨"f2d", .fixed 0, .other, none⟩,
  ⟨"d2i", .fixed 0, .other, none⟩,
  ⟨"d2l", .fixed 0, .other, none⟩,
  -- 0x90
  ⟨"d2f", .fixed 0, .other, none⟩,
  ⟨"i2b", .fixed 0, .other, none⟩,
  ⟨"i2c", .fixed 0, .other, none⟩,
  ⟨"i2s", .fixed 0, .other, none⟩,
  ⟨"lcmp", .fixed 0, .other, none⟩,
  ⟨"fcmpl", .fixed 0, .other, none⟩,
  ⟨"fcmpg", .fixed 0, .other, none⟩,
  ⟨"dcmpl", .fixed 0, .other, none⟩,
  ⟨"dcmpg", .fixed 0, .other, none⟩,
  ⟨"ifeq", .fixed 2, .conditionalBranch, some (.branchZero .eq)⟩,
  ⟨"ifne", .fixed 2, .conditionalBranch, some (.branchZero .ne)⟩,
  ⟨"iflt", .fixed 2, .conditionalBranch, some (.branchZero .lt)⟩,
  ⟨"ifge", .fixed 2, .conditionalBranch, some (.branchZero .ge)⟩,
  ⟨"ifgt", .fixed 2, .conditionalBranch, some (.branchZero .gt)⟩,
  ⟨"ifle", .fixed 2, .conditionalBranch, some (.branchZero .le)⟩,
  ⟨"if_icmpeq", .fixed 2, .conditionalBranch, some (.branchPair .eq)⟩,
  -- 0xa0
  ⟨"if_icmpne", .fixed 2, .conditionalBranch, some (.branchPair .ne)⟩,
  ⟨"if_icmplt", .fixed 2, .conditionalBranch, some (.branchPair .lt)⟩,
  ⟨"if_icmpge", .fixed 2, .conditionalBranch, some (.branchPair .ge)⟩,
  ⟨"if_icmpgt", .fixed 2, .conditionalBranch, some (.branchPair .gt)⟩,
  ⟨"if_icmple", .fixed 2, .conditionalBranch, some (.branchPair .le)⟩,
  ⟨"if_acmpeq", .fixed 2, .conditionalBranch, some (.branchPair .eq)⟩,
  ⟨"if_acmpne", .fixed 2, .conditionalBranch, some (.branchPair .ne)⟩,
  ⟨"goto", .fixed 2, .goto, some .jump⟩,
  ⟨"jsr", .fixed 2, .subroutine, none⟩,
  ⟨"ret", .fixed 1, .subroutineReturn, none⟩,
  ⟨"tableswitch", .dynamic, .switch, some .switch⟩,
  ⟨"lookupswitch", .dynamic, .switch, some .switch⟩,
  ⟨"ireturn", .fixed 0, .methodReturn, some .returnValue⟩,
  ⟨"lreturn", .fixed 0, .methodReturn, none⟩,
  ⟨"freturn", .fixed 0, .methodReturn, none⟩,
  ⟨"dreturn", .fixed 0, .methodReturn, none⟩,
  -- 0xb0
  ⟨"areturn", .fixed 0, .methodReturn, some .returnValue⟩,
  ⟨"return", .fixed 0, .methodReturn, some .returnVoid⟩,
  ⟨"getstatic", .fixed 2, .other, some .getStatic⟩,
  ⟨"putstatic", .fixed 2, .other, some .putStatic⟩,
  ⟨"getfield", .fixed 2, .other, none⟩,
  ⟨"putfield", .fixed 2, .other, none⟩,
  ⟨"invokevirtual", .fixed 2, .other, none⟩,
  ⟨"invokespecial", .fixed 2, .other, some (.call .special)⟩,
  ⟨"invokestatic", .fixed 2, .other, some (.call .static)⟩,
  ⟨"invokeinterface", .fixed 4, .other, none⟩,
  ⟨"invokedynamic", .fixed 4, .other, none⟩,
  ⟨"new", .fixed 2, .other, none⟩,
  ⟨"newarray", .fixed 1, .other, none⟩,
  ⟨"anewarray", .fixed 2, .other, none⟩,
  ⟨"arraylength", .fixed 0, .other, none⟩,
  ⟨"athrow", .fixed 0, .raise, some .raise⟩,
  -- 0xc0
  ⟨"checkcast", .fixed 2, .other, none⟩,
  ⟨"instanceof", .fixed 2, .other, none⟩,
  ⟨"monitorenter", .fixed 0, .other, none⟩,
  ⟨"monitorexit", .fixed 0, .other, none⟩,
  ⟨"wide", .dynamic, .other, none⟩,
  ⟨"multianewarray", .fixed 3, .other, none⟩,
  ⟨"ifnull", .fixed 2, .conditionalBranch, some (.branchNull .eq)⟩,
  ⟨"ifnonnull", .fixed 2, .conditionalBranch, some (.branchNull .ne)⟩,
  ⟨"goto_w", .fixed 4, .goto, some .jump⟩,
  ⟨"jsr_w", .fixed 4, .subroutine, none⟩]

namespace Opcode

def iinc : Opcode := 0x84
def tableswitch : Opcode := 0xaa
def lookupswitch : Opcode := 0xab
def wide : Opcode := 0xc4
def gotoWide : Opcode := 0xc8
def jsrWide : Opcode := 0xc9

def row? (op : Opcode) : Option InstructionSet.Row :=
  InstructionSet.rows[op.toNat]?

def mnemonic (op : Opcode) : String :=
  (row? op).elim "<unknown>" (·.mnemonic)

/-- Undefined opcodes transfer no control. -/
def category (op : Opcode) : Category :=
  (row? op).elim .other (·.category)

def effect? (op : Opcode) : Option Effect :=
  (row? op).bind (·.effect)

end Opcode

namespace OperandTable

/-- Operand lengths of the instruction set. -/
def standard : OperandTable :=
  fun op => (Opcode.row? op).map (·.operands)

/-- A table with some lengths replaced or taken away; the first change listed for an opcode counts. -/
def override (changes : List (Opcode × Option OperandLength)) (table : OperandTable) : OperandTable :=
  fun op => (changes.lookup op).getD (table op)

end OperandTable

end Destack
