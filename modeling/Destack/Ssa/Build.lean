import Std.Data.TreeSet
import Destack.Descriptor
import Destack.Graph.Layout
import Destack.Instruction.Action
import Destack.Ssa.Order
import Destack.Pass

/-!
# Building nodes

Each block is run on a frame that holds nodes in place of values. Loads and stores of local variables only move
nodes within the frame; every other instruction emits nodes for its values and effects. At the start of a block the
frame is that of its only predecessor, or a merge is made for each slot on which the predecessors differ. The head of
a loop is entered before all its predecessors are known: it gets a merge for every slot, with the merge itself as the
argument for each predecessor still missing. Parameters and slots are numbered in sixteen bits.

The pass changes the graph and the statistics as it goes, and what it did before a failure stays.
-/

namespace Destack

/-- A method as it is given to the compiler. -/
structure Method where
  /-- Internal name of the declaring class. -/
  owner : String
  name : String
  descriptor : String
  isStatic : Bool
  /-- Local slots, those of the parameters included. -/
  maxLocals : Nat
  code : List UInt8
deriving DecidableEq, Repr

namespace Ssa

/-- What stays the same while a method is built. -/
structure Context where
  pool : ConstantPool
  isStatic : Bool
  type : MethodType

namespace Context

/-- Types of the formal parameters, the receiver first. -/
def formals (c : Context) : List ValueType :=
  if c.isStatic then c.type.params else .reference :: c.type.params

end Context

/-- Bytes in front of the first element of an array. -/
def arrayHeaderSize : Int := 12

/-- Bytes of an element of an array. -/
def arrayElementSize : Int := 4

/-- The state of the pass. -/
structure BuildState where
  graph : Graph
  stats : Statistics
  /-- Block under construction. -/
  block : BlockId := Graph.entry
  frame : Frame := Frame.empty
  built : Std.TreeSet BlockId := ∅
  /-- Depth of the operand stack at the start of each block entered. -/
  entryDepth : Std.TreeMap BlockId Nat := ∅

/-- The frame at the end of a block, if the block is built. -/
def BuildState.exitOf (s : BuildState) (p : BlockId) : Except Error (Option Frame) := do
  if s.built.contains p then return some (← s.graph.getBlock p).exit else return none

abbrev BuildM := Pass BuildState

namespace BuildM

/-! ## Nodes and the operand stack -/

/-- The block of a number, which has to be in the graph. -/
def blockAt (b : BlockId) : BuildM Block := do
  Pass.lift ((← get).graph.getBlock b)

/-- Appends a node to the block under construction. -/
def emitWith (type : ValueType) (make : NodeId → Op) : BuildM NodeId := do
  let s ← get
  let (id, graph) ← Pass.lift (s.graph.addNodeWith s.block type make)
  set { s with graph, stats := s.stats.addNode (make id).kind }
  return id

def emit (type : ValueType) (op : Op) : BuildM NodeId :=
  emitWith type fun _ => op

def push (id : NodeId) : BuildM Unit :=
  modify fun s => { s with frame := { s.frame with stack := id :: s.frame.stack } }

/-- Takes the top of the operand stack. -/
def pop (i : Instruction) : BuildM NodeId := do
  match (← get).frame.stack with
  | [] => throw (.stackUnderflow i.address)
  | id :: rest =>
    modify fun s => { s with frame := { s.frame with stack := rest } }
    return id

/-- Appends a node and pushes it. -/
def emitPush (type : ValueType) (op : Op) : BuildM Unit := do
  push (← emit type op)

/-- The node in a local slot. -/
def readLocal (i : Instruction) (slot : Nat) : BuildM NodeId := do
  match (← get).frame.locals[slot]? with
  | some id => return id
  | none => throw (.invalidLocal slot i.address)

/-- Puts a node into a local slot. -/
def writeLocal (i : Instruction) (slot : Nat) (id : NodeId) : BuildM Unit := do
  if slot < (← get).frame.locals.size then
    modify fun s => { s with frame := { s.frame with locals := s.frame.locals.setIfInBounds slot id } }
  else throw (.invalidLocal slot i.address)

/-- The block that a jump target starts. -/
def targetBlock (i : Instruction) (target : Int) : BuildM BlockId := do
  Pass.lift ((← get).graph.targetBlock i target)

/-! ## Instructions -/

/-- The first jump target of an instruction that acts as a jump. A wide prefix has none. -/
def jumpTarget (i : Instruction) : BuildM Int :=
  match i.jumpTargets with
  | target :: _ => pure target
  | [] => throw (.unsupported i.effectiveOpcode i.address)

/-- Ends the block with a comparison of two nodes. -/
def branch (i : Instruction) (condition : Condition) (lhs rhs : NodeId) : BuildM Unit := do
  let taken ← targetBlock i (← jumpTarget i)
  let fallthrough ← targetBlock i i.next
  discard <| emit .void (.branch condition lhs rhs taken fallthrough)

/-- Ends the block with a switch on the top of the stack. -/
def switch (i : Instruction) : BuildM Unit := do
  let value ← pop i
  match i.switchTable? with
  | none => throw (.unsupported i.opcode i.address)
  | some table =>
    let default ← targetBlock i (i.address + table.default)
    let cases ← table.cases.mapM fun (key, offset) => do
      return (key, ← targetBlock i (i.address + offset))
    discard <| emit .void (.switch value default cases)

/-- Pushes a literal of the pool. -/
def pushConstant (c : Context) (index : Nat) : BuildM Unit := do
  match ← Pass.lift (c.pool.entry index) with
  | .int value => emitPush .int (.intConst value)
  | .string value => emitPush .reference (.stringConst value)
  | _ => throw (.unexpectedConstant index .literal)

/-- Nodes for the address of the first element of an array and the offset of an element. -/
def elementAddress (opcode : Opcode) (array index : NodeId) : BuildM (NodeId × NodeId) := do
  let header ← emit .int (.intConst arrayHeaderSize)
  let base ← emit .reference (.arith .add opcode array header)
  let scale ← emit .int (.intConst arrayElementSize)
  let offset ← emit .int (.arith .mul opcode index scale)
  return (base, offset)

def arrayLoad (i : Instruction) (type : ValueType) : BuildM Unit := do
  let index ← pop i
  let array ← pop i
  let (base, offset) ← elementAddress i.opcode array index
  emitPush type (.arrayLoad base offset)

def arrayStore (i : Instruction) : BuildM Unit := do
  let value ← pop i
  let index ← pop i
  let array ← pop i
  let (base, offset) ← elementAddress i.opcode array index
  discard <| emit .void (.arrayStore base offset value)

/-- Calls a method of the pool on the arguments on the stack, the last one on top. -/
def call (c : Context) (i : Instruction) (kind : CallKind) (index : Nat) : BuildM Unit := do
  let method ← Pass.lift (c.pool.method index)
  let type ← Pass.lift (MethodType.ofDescriptor method.descriptor)
  let count := type.arity + (if kind = .special then 1 else 0)
  let stack := (← get).frame.stack
  if stack.length < count then throw (.stackUnderflow i.address)
  modify fun s => { s with frame := { s.frame with stack := stack.drop count } }
  let id ← emit type.result.onStack (.call kind method (stack.take count).reverse)
  if type.returnsValue then push id

/-- Runs an action on the frame and emits its nodes. -/
def perform (c : Context) (i : Instruction) : Action → BuildM Unit
  | .nop => pure ()
  | .pushNull => emitPush .reference .nullConst
  | .pushInt value => emitPush .int (.intConst value)
  | .pushConstant index => pushConstant c index
  | .load slot => do push (← readLocal i slot)
  | .store slot => do writeLocal i slot (← pop i)
  | .arrayLoadInt => arrayLoad i .int
  | .arrayLoadReference => arrayLoad i .reference
  | .arrayStore => arrayStore i
  | .pop => discard (pop i)
  | .dup => do
    let top ← pop i
    push top
    push top
  | .swap => do
    let a ← pop i
    let b ← pop i
    push a
    push b
  | .arith op => do
    let rhs ← pop i
    let lhs ← pop i
    emitPush .int (.arith op i.effectiveOpcode lhs rhs)
  | .negate => do
    let value ← pop i
    emitPush .int (.negate value)
  | .increment slot amount => do
    let lhs ← readLocal i slot
    let rhs ← emit .int (.intConst amount)
    let sum ← emit .int (.arith .add i.effectiveOpcode lhs rhs)
    writeLocal i slot sum
  | .branchZero condition => do
    let lhs ← pop i
    let rhs ← emit .int (.intConst 0)
    branch i condition lhs rhs
  | .branchPair condition => do
    let rhs ← pop i
    let lhs ← pop i
    branch i condition lhs rhs
  | .branchNull condition => do
    let lhs ← pop i
    let rhs ← emit .reference .nullConst
    branch i condition lhs rhs
  | .jump => do
    let target ← targetBlock i (← jumpTarget i)
    discard <| emit .void (.goto target)
  | .switch => switch i
  | .returnValue => do
    let value ← pop i
    discard <| emit .void (.ret (some value))
  | .returnVoid => discard <| emit .void (.ret none)
  | .raise => do
    let value ← pop i
    discard <| emit .void (.raise value)
  | .getStatic index => do
    let field ← Pass.lift (c.pool.field index)
    let type ← Pass.lift (ValueType.ofDescriptor field.descriptor)
    emitPush type.onStack (.getStatic field)
  | .putStatic index => do
    let field ← Pass.lift (c.pool.field index)
    let value ← pop i
    discard <| emit .void (.putStatic field value)
  | .call kind index => call c i kind index

def instruction (c : Context) (i : Instruction) : BuildM Unit :=
  match i.action? with
  | some action => perform c i action
  | none => throw (.unsupported i.effectiveOpcode i.address)

/-! ## Frames at the start of a block -/

/-- Adds a placeholder for the next local slot. -/
def pushUndefined : BuildM Unit := do
  let slot := (← get).frame.locals.size
  let id ← emit .void (.undefined (low16 slot))
  modify fun s => { s with frame := { s.frame with locals := s.frame.locals.push id } }

/-- Adds the slots of a parameter; the second slot of a wide one holds a placeholder. -/
def pushParam (index : Nat) (type : ValueType) : BuildM Unit := do
  let id ← emit type.onStack (.param (low16 index))
  modify fun s => { s with frame := { s.frame with locals := s.frame.locals.push id } }
  if type.slots = 2 then pushUndefined

/-- Adds placeholders for a number of slots. -/
def pushUndefineds : Nat → BuildM Unit
  | 0 => pure ()
  | n + 1 => do
    pushUndefined
    pushUndefineds n

/-- The frame at the start of the method: the parameters, and placeholders up to the size of the frame. -/
def enterEntry (c : Context) (frameSize : Nat) : BuildM Unit := do
  c.formals.zipIdx.forM fun (type, index) => pushParam index type
  pushUndefineds (frameSize - (← get).frame.locals.size)

/-- The type of the first incoming node that is no placeholder. -/
def mergeType (g : Graph) : List NodeId → Except Error ValueType
  | [] => .ok .void
  | id :: ids =>
    match g.getResolved id with
    | .error e => .error e
    | .ok node => if node.op.isUndefined then mergeType g ids else .ok node.type

/-- Makes a merge of the nodes that come in; it is its own argument where none does yet. -/
def makeMerge (slot : Slot) (incoming : List (Option NodeId)) : BuildM NodeId := do
  let type ← Pass.lift (mergeType (← get).graph (incoming.filterMap id))
  let id ← emitWith type fun me => .merge slot (incoming.map (·.getD me))
  modify fun s => { s with stats := s.stats.addMergeCreated }
  return id

/-- The one node that comes in from every side, if it is the same. -/
def agreed? : List (Option NodeId) → Option NodeId
  | some id :: rest => if rest.all (· == some id) then some id else none
  | _ => none

/-- The node for a slot where several blocks meet. `sources` holds the exit frames known so far. -/
def mergeSlot (isHead : Bool) (sources : List (Option Frame)) (slot : Slot) : BuildM NodeId := do
  let incoming := sources.map fun source => source.bind (·.slot? slot)
  match if isHead then none else agreed? incoming with
  | some id => return id
  | none => makeMerge slot incoming

/-- The frame where several blocks meet. -/
def enterJoin (frameSize : Nat) (b : BlockId) (preds : List BlockId) : BuildM Unit := do
  let isHead := (← blockAt b).isHead
  let sources ← Pass.lift (preds.mapM (← get).exitOf)
  if !isHead && sources.any (·.isNone) then throw (.layout (.joinBeforePredecessors b))
  let some first := (sources.filterMap id).head? | throw (.layout (.headBeforePredecessors b))
  let depth := first.depth
  match (sources.filterMap id).find? (·.depth != depth) with
  | some other => throw (.stackMismatch b depth other.depth)
  | none =>
    let locals ← (List.range (low16 frameSize)).mapM fun k => mergeSlot isHead sources (.localVar k)
    let stack ← (List.range (low16 depth)).mapM fun k => mergeSlot isHead sources (.operand k)
    modify fun s => { s with frame := ⟨locals.toArray, stack.reverse⟩ }

/-- Sets up the frame at the start of a block. -/
def enter (c : Context) (frameSize : Nat) (b : BlockId) : BuildM Unit := do
  modify fun s => { s with block := b, frame := Frame.empty }
  if b = Graph.entry then enterEntry c frameSize
  else
    match (← blockAt b).preds with
    | [] => throw (.layout (.noPredecessors b))
    | [p] =>
      match ← Pass.lift ((← get).exitOf p) with
      | some exit => modify fun s => { s with frame := exit }
      | none => throw (.layout (.beforePredecessor b p))
    | preds => enterJoin frameSize b preds

/-! ## Blocks -/

/-- Checks that every successor entered before was entered with the stack as deep as it is now. -/
def checkDepths (b : BlockId) : BuildM Unit := do
  let succs := (← blockAt b).succs
  let s ← get
  succs.forM fun succ =>
    match s.entryDepth[succ]? with
    | some expected =>
      if s.frame.depth = expected then pure ()
      else throw (.stackMismatch succ expected s.frame.depth)
    | none => pure ()

/-- Builds a block: its instructions, and a jump to the next block if none of them ends it. -/
def block (c : Context) (frameSize : Nat) (b : BlockId) : BuildM Unit := do
  enter c frameSize b
  modify fun s => { s with entryDepth := s.entryDepth.insert b s.frame.depth }
  let instructions := (← blockAt b).instructions
  instructions.forM (instruction c)
  let ended := (instructions.getLast?.map (·.category.endsBlock)).getD false
  if !ended then
    match (← blockAt b).succs with
    | next :: _ => discard <| emit .void (.goto next)
    | [] => pure ()
  checkDepths b
  let s ← get
  let graph ← Pass.lift (s.graph.editBlock b fun block => { block with exit := s.frame })
  set { s with graph, built := s.built.insert b }

/-- Builds all blocks in order and records the order. -/
def blocks (c : Context) (frameSize : Nat) : BuildM Unit := do
  Pass.lift (← get).graph.validate
  let order ← Pass.lift (Order.compute (← get).graph)
  order.forM (block c frameSize)
  modify fun s => { s with graph := { s.graph with order } }

end BuildM

/-- Local slots of a method's frame: as many as it asks for, and no fewer than its parameters take. -/
def frameSize (m : Method) (type : MethodType) : Nat :=
  max m.maxLocals (type.paramSlots + (if m.isStatic then 0 else 1))

/-- Builds the nodes of a method over its analysed graph. -/
def build (pool : ConstantPool) (m : Method) : Pass Work Unit := do
  let type ← Pass.lift (MethodType.ofDescriptor m.descriptor)
  discard <| Pass.focus (fun w => ({ graph := w.graph, stats := w.stats } : BuildState))
    (fun s => { graph := s.graph, stats := s.stats })
    (BuildM.blocks ⟨pool, m.isStatic, type⟩ (frameSize m type))

end Ssa

end Destack
