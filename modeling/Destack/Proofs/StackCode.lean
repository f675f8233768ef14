import Destack.Descriptor
import Destack.Graph.Basic
import Destack.Proofs.World

/-!
# Running stack code

Instructions run one after the other on a program counter, a list of local slots and an operand stack. Opcodes are
read by their numbers here, and operands where they stand, so that the machine does not rest on the table of the
instruction set or on the reading of instructions as actions. An element of an array lies four bytes per index past a
header of twelve bytes.
-/

namespace Destack.StackCode

structure State (V : Type) where
  pc : Nat
  locals : List V
  /-- Operand stack, top first. -/
  stack : List V

/-! ## Opcodes by number -/

/-- Operations of the numbers from `0x60` on, each on two values. -/
def arithOp? : Nat → Option ArithOp
  | 0x60 => some .add
  | 0x64 => some .sub
  | 0x68 => some .mul
  | 0x6c => some .div
  | 0x70 => some .rem
  | 0x78 => some .shl
  | 0x7a => some .shr
  | 0x7c => some .ushr
  | 0x7e => some .and
  | 0x80 => some .or
  | 0x82 => some .xor
  | _ => none

/-- The comparisons in the order in which groups of branches are numbered. -/
def conditionAt (k : Nat) : Condition :=
  match k with
  | 0 => .eq
  | 1 => .ne
  | 2 => .lt
  | 3 => .ge
  | 4 => .gt
  | _ => .le

/-- What the opcode with a number does, if the machine has it. -/
def effectOf? (op : Nat) : Option Effect :=
  if op = 0x00 then some .nop
  else if op = 0x01 then some .pushNull
  else if 0x02 ≤ op ∧ op ≤ 0x08 then some (.pushInt ((op : Int) - 0x03))
  else if op = 0x10 then some .pushByte
  else if op = 0x11 then some .pushShort
  else if op = 0x12 then some .pushConstant
  else if op = 0x13 then some .pushConstantWide
  else if op = 0x15 ∨ op = 0x19 then some (.load none)
  else if 0x1a ≤ op ∧ op ≤ 0x1d then some (.load (some (op - 0x1a)))
  else if 0x2a ≤ op ∧ op ≤ 0x2d then some (.load (some (op - 0x2a)))
  else if op = 0x2e then some .arrayLoadInt
  else if op = 0x32 then some .arrayLoadReference
  else if op = 0x36 ∨ op = 0x3a then some (.store none)
  else if 0x3b ≤ op ∧ op ≤ 0x3e then some (.store (some (op - 0x3b)))
  else if 0x4b ≤ op ∧ op ≤ 0x4e then some (.store (some (op - 0x4b)))
  else if op = 0x4f ∨ op = 0x53 then some .arrayStore
  else if op = 0x57 then some .pop
  else if op = 0x59 then some .dup
  else if op = 0x5f then some .swap
  else if op = 0x74 then some .negate
  else if 0x60 ≤ op ∧ op ≤ 0x83 then (arithOp? op).map .arith
  else if op = 0x84 then some .increment
  else if 0x99 ≤ op ∧ op ≤ 0x9e then some (.branchZero (conditionAt (op - 0x99)))
  else if 0x9f ≤ op ∧ op ≤ 0xa4 then some (.branchPair (conditionAt (op - 0x9f)))
  else if 0xa5 ≤ op ∧ op ≤ 0xa6 then some (.branchPair (conditionAt (op - 0xa5)))
  else if op = 0xa7 ∨ op = 0xc8 then some .jump
  else if op = 0xaa ∨ op = 0xab then some .switch
  else if op = 0xac ∨ op = 0xb0 then some .returnValue
  else if op = 0xb1 then some .returnVoid
  else if op = 0xbf then some .raise
  else if op = 0xb2 then some .getStatic
  else if op = 0xb3 then some .putStatic
  else if op = 0xb7 then some (.call .special)
  else if op = 0xb8 then some (.call .static)
  else if op = 0xc6 then some (.branchNull .eq)
  else if op = 0xc7 then some (.branchNull .ne)
  else none

/-- Opcodes that a wide prefix may stand before: loads and stores of a local slot by its number, and increments. -/
def wideForms : List Opcode := [0x15, 0x19, 0x36, 0x3a, 0x84]

/-- What an instruction does. A wide prefix stands for the opcode after it. -/
def meaning? (i : Instruction) : Option Effect :=
  if i.opcode = 0xc4 then
    match i.operands[0]? with
    | some sub => if sub ∈ wideForms then effectOf? sub.toNat else none
    | none => none
  else effectOf? i.opcode.toNat

/-- Local slot named by the operands: a byte, or two bytes after the opcode that a wide prefix stands before. -/
def slotOperand (i : Instruction) : Nat :=
  if i.opcode = 0xc4 then i.halfAt 1 else i.byteAt 0

/-- Amount of an increment, which follows the slot. -/
def amountOperand (i : Instruction) : Int :=
  if i.opcode = 0xc4 then i.signedHalfAt 3 else i.signedByteAt 1

/-- Where a branch or a jump leads: an offset of two bytes, and of four bytes in the far jump. -/
def branchTarget (i : Instruction) : Int :=
  i.address + (if i.opcode = 0xc8 then i.signedWordAt 0 else i.signedHalfAt 0)

/-! ## Steps -/

variable (W : World)

/-- Continues at an address, which has to be a natural number. -/
def goTo (target : Int) (locals stack : List W.Value) : Exec W (State W.Value) :=
  match target with
  | .ofNat a => pure ⟨a, locals, stack⟩
  | .negSucc _ => throw .stuck

/-- The value of a literal of the pool. -/
def literal (pool : ConstantPool) (index : Nat) : Exec W W.Value :=
  match pool.entry index with
  | .ok (.int n) => pure (W.int n)
  | .ok (.string s) => pure (W.literal s)
  | _ => throw .stuck

/-- Address of an element of an array. -/
def elementAddress (array index : W.Value) : Exec W W.Value := do
  let base ← Exec.arith .add array (W.int 12)
  let offset ← Exec.arith .mul index (W.int 4)
  return W.address base offset

/-- Values that a call takes from the stack. The receiver of a special call lies below its arguments. -/
def argCount (kind : CallKind) (type : MethodType) : Nat :=
  match kind with
  | .static => type.params.length
  | .special => type.params.length + 1

/-- Runs an instruction that does something to the frame. -/
def execute (pool : ConstantPool) (i : Instruction) (s : State W.Value) : Effect → Exec W (State W.Value)
  | .nop => pure ⟨i.next, s.locals, s.stack⟩
  | .pushNull => pure ⟨i.next, s.locals, W.int 0 :: s.stack⟩
  | .pushInt n => pure ⟨i.next, s.locals, W.int n :: s.stack⟩
  | .pushByte => pure ⟨i.next, s.locals, W.int (i.signedByteAt 0) :: s.stack⟩
  | .pushShort => pure ⟨i.next, s.locals, W.int (i.signedHalfAt 0) :: s.stack⟩
  | .pushConstant => do return ⟨i.next, s.locals, (← literal W pool (i.byteAt 0)) :: s.stack⟩
  | .pushConstantWide => do return ⟨i.next, s.locals, (← literal W pool (i.halfAt 0)) :: s.stack⟩
  | .load slot => do
    let v ← Exec.need s.locals[slot.getD (slotOperand i)]?
    return ⟨i.next, s.locals, v :: s.stack⟩
  | .store slot =>
    match s.stack with
    | v :: rest =>
      if slot.getD (slotOperand i) < s.locals.length then
        pure ⟨i.next, s.locals.set (slot.getD (slotOperand i)) v, rest⟩
      else throw .stuck
    | [] => throw .stuck
  | .arrayLoadInt | .arrayLoadReference =>
    match s.stack with
    | index :: array :: rest => do
      let v ← Exec.ask (.load (← elementAddress W array index))
      return ⟨i.next, s.locals, v :: rest⟩
    | _ => throw .stuck
  | .arrayStore =>
    match s.stack with
    | value :: index :: array :: rest => do
      discard <| Exec.ask (.store (← elementAddress W array index) value)
      return ⟨i.next, s.locals, rest⟩
    | _ => throw .stuck
  | .pop =>
    match s.stack with
    | _ :: rest => pure ⟨i.next, s.locals, rest⟩
    | [] => throw .stuck
  | .dup =>
    match s.stack with
    | v :: rest => pure ⟨i.next, s.locals, v :: v :: rest⟩
    | [] => throw .stuck
  | .swap =>
    match s.stack with
    | v :: w :: rest => pure ⟨i.next, s.locals, w :: v :: rest⟩
    | _ => throw .stuck
  | .arith op =>
    match s.stack with
    | rhs :: lhs :: rest => do return ⟨i.next, s.locals, (← Exec.arith op lhs rhs) :: rest⟩
    | _ => throw .stuck
  | .negate =>
    match s.stack with
    | v :: rest => pure ⟨i.next, s.locals, W.negate v :: rest⟩
    | [] => throw .stuck
  | .increment => do
    let v ← Exec.need s.locals[slotOperand i]?
    let sum ← Exec.arith .add v (W.int (amountOperand i))
    return ⟨i.next, s.locals.set (slotOperand i) sum, s.stack⟩
  | .branchZero c | .branchNull c =>
    match s.stack with
    | v :: rest => goTo W (W.choose c v (W.int 0) (branchTarget i) i.next) s.locals rest
    | [] => throw .stuck
  | .branchPair c =>
    match s.stack with
    | rhs :: lhs :: rest => goTo W (W.choose c lhs rhs (branchTarget i) i.next) s.locals rest
    | _ => throw .stuck
  | .jump => goTo W (branchTarget i) s.locals s.stack
  | .switch =>
    match s.stack, i.switchTable? with
    | v :: rest, some table => goTo W (i.address + W.select v table.default table.cases) s.locals rest
    | _, _ => throw .stuck
  | .returnValue =>
    match s.stack with
    | v :: _ => throw (.returned (some v))
    | [] => throw .stuck
  | .returnVoid => throw (.returned none)
  | .raise =>
    match s.stack with
    | v :: _ => throw (.raised v)
    | [] => throw .stuck
  | .getStatic => do
    let field ← Exec.need (pool.field (i.halfAt 0)).toOption
    return ⟨i.next, s.locals, (← Exec.ask (.getStatic field)) :: s.stack⟩
  | .putStatic => do
    let field ← Exec.need (pool.field (i.halfAt 0)).toOption
    match s.stack with
    | v :: rest =>
      discard <| Exec.ask (.putStatic field v)
      return ⟨i.next, s.locals, rest⟩
    | [] => throw .stuck
  | .call kind => do
    let method ← Exec.need (pool.method (i.halfAt 0)).toOption
    let type ← Exec.need (MethodType.ofDescriptor method.descriptor).toOption
    if s.stack.length < argCount kind type then throw .stuck
    let v ← Exec.ask (.call method (s.stack.take (argCount kind type)).reverse)
    let rest := s.stack.drop (argCount kind type)
    return ⟨i.next, s.locals, if type.result = .void then rest else v :: rest⟩

/-- The instruction at an address. -/
def fetch? (code : List Instruction) (pc : Nat) : Option Instruction :=
  code.find? (·.address = pc)

/-- Runs the instruction at the program counter. -/
def step (pool : ConstantPool) (code : List Instruction) (s : State W.Value) : Exec W (State W.Value) := do
  let i ← Exec.need (fetch? code s.pc)
  execute W pool i s (← Exec.need (meaning? i))

/-- Runs a number of instructions. -/
def run (pool : ConstantPool) (code : List Instruction) : Nat → State W.Value → Exec W (State W.Value) :=
  Exec.iterate (step W pool code)

/-- Runs as many instructions as a block has, and names the block that starts where that leads. -/
def stepBlock (pool : ConstantPool) (code : List Instruction) (g : Graph) (q : BlockId × State W.Value) :
    Exec W (BlockId × State W.Value) := do
  let block ← Exec.need (g.block? q.1)
  let s ← run W pool code block.instructions.length q.2
  return (← Exec.need (g.blockAt? s.pc), s)

/-- The run after a number of blocks, from the entry and a state. -/
def runBlocks (pool : ConstantPool) (code : List Instruction) (g : Graph) (s : State W.Value) (n : Nat) :
    Exec W (BlockId × State W.Value) :=
  Exec.iterate (stepBlock W pool code g) n (Graph.entry, s)

/-! ## The frame at the start -/

/-- First local slot of the formal parameter with an index: the slots of those before it. -/
def firstSlot (formals : List ValueType) (index : Nat) : Nat :=
  ((formals.take index).map (·.slots)).sum

/-- The formal parameter whose value a local slot holds at the start. The second slot of a wide one holds none. -/
def paramIn? (formals : List ValueType) (slot : Nat) : Option Nat :=
  (List.range formals.length).find? fun index => firstSlot formals index = slot

/-- Local slots at the start of a method. -/
def initialLocals {V : Type} (inputs : Inputs V) (formals : List ValueType) (size : Nat) : List V :=
  (List.range size).map fun slot =>
    match paramIn? formals slot with
    | some index => inputs.arg index
    | none => inputs.unset slot

/-- A method starts with its first instruction and an empty operand stack. -/
def start {V : Type} (inputs : Inputs V) (formals : List ValueType) (size : Nat) : State V :=
  ⟨0, initialLocals inputs formals size, []⟩

end Destack.StackCode
