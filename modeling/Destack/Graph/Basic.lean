import Std.Data.TreeMap
import Destack.Error
import Destack.Instruction
import Destack.Machine.Instr
import Destack.Ssa.Node

/-!
# The graph of a method

A method is a graph of basic blocks. Blocks are numbered in address order and keep their instructions, their edges,
what the flow analysis found out about them, and the nodes and register instructions made from them. The nodes and
the register instructions themselves live in two tables of the graph and are referred to by position. A node that
another one stands for is redirected by an alias.

A look-up whose name starts with `get`, and an edit of a block that has to be there, report what is not in the graph
(`Error.absent`).
-/

namespace Destack

structure Block where
  instructions : List Instruction := []
  /-- Blocks that lead here; the order is that of the arguments of a merge. -/
  preds : List BlockId := []
  succs : List BlockId := []
  /-- Nodes that define the frame at the end of the block. -/
  exit : Frame := Frame.empty
  /-- Nodes in execution order. -/
  nodes : Array NodeId := #[]
  /-- Register instructions in execution order. -/
  code : Array InstrId := #[]
  isHead : Bool := false
  isTail : Bool := false
  /-- Reached by the search for loops. -/
  visited : Bool := false
  /-- On the current path of the search for loops. -/
  active : Bool := false
  /-- Number of the loop that the block heads. -/
  loopIndex : Option Nat := none
  /-- Immediate dominator; the entry has none. -/
  dominator : Option BlockId := none
  /-- Predecessors that the dominator walk has not come from yet. -/
  awaited : Nat := 0
  /-- Back edges into the block. -/
  backEdges : Nat := 0
deriving DecidableEq, Repr

/-- Address of the first instruction, if there is one. -/
def Block.start? (b : Block) : Option Nat :=
  b.instructions.head?.map (·.address)

structure Graph where
  blocks : Std.TreeMap BlockId Block := ∅
  /-- Block that starts at an address. -/
  starts : Std.TreeMap Nat BlockId := ∅
  nodes : Array Ssa.Node := #[]
  /-- Node that stands for an elided one. -/
  aliases : Std.TreeMap NodeId NodeId := ∅
  instrs : Array Machine.Line := #[]
  /-- Blocks in the order in which nodes were built for them. -/
  order : List BlockId := []
  /-- Virtual registers handed out. -/
  registers : Nat := 0
  /-- Loop numbers handed out. -/
  loops : Nat := 0

namespace Graph

def empty : Graph := {}

/-! ## Blocks -/

/-- The block where a method starts. -/
def entry : BlockId := 0

def block? (g : Graph) (b : BlockId) : Option Block :=
  g.blocks[b]?

def hasBlock (g : Graph) (b : BlockId) : Bool :=
  g.blocks.contains b

def blockCount (g : Graph) : Nat :=
  g.blocks.size

/-- Block numbers in ascending order. -/
def blockIds (g : Graph) : List BlockId :=
  g.blocks.keys

/-- Blocks with their numbers, in ascending order. -/
def blockList (g : Graph) : List (BlockId × Block) :=
  g.blocks.toList

/-- Changes a block, if it is there. -/
def modifyBlock (g : Graph) (b : BlockId) (f : Block → Block) : Graph :=
  { g with blocks := g.blocks.modify b f }

/-- A block that has to be there. -/
def getBlock (g : Graph) (b : BlockId) : Except Error Block :=
  match g.block? b with
  | some block => .ok block
  | none => .error (.absent (.block b))

/-- Changes a block that has to be there. -/
def editBlock (g : Graph) (b : BlockId) (f : Block → Block) : Except Error Graph :=
  if g.hasBlock b then .ok (g.modifyBlock b f) else .error (.absent (.block b))

/-- Changes every block. -/
def mapBlocks (g : Graph) (f : Block → Block) : Graph :=
  { g with blocks := g.blocks.map fun _ block => f block }

def succs (g : Graph) (b : BlockId) : List BlockId :=
  ((g.block? b).map (·.succs)).getD []

def preds (g : Graph) (b : BlockId) : List BlockId :=
  ((g.block? b).map (·.preds)).getD []

/-- The number of the next new block: one more than the greatest that is there. -/
def nextBlock (g : Graph) : BlockId :=
  match g.blocks.maxKey? with
  | some b => b + 1
  | none => 0

/-- Adds a block under the next number. -/
def addBlock (g : Graph) (block : Block := {}) : BlockId × Graph :=
  let b := g.nextBlock
  (b, { g with blocks := g.blocks.insert b block })

/-- Takes a block away and forgets the addresses of its instructions. -/
def eraseBlock (g : Graph) (b : BlockId) : Graph :=
  match g.block? b with
  | none => g
  | some block =>
    { g with
      blocks := g.blocks.erase b
      starts := block.instructions.foldl (fun starts i => starts.erase i.address) g.starts }

/-- The block that starts at an address. -/
def blockAt? (g : Graph) (address : Nat) : Option BlockId :=
  g.starts[address]?

/-- The block that a jump target starts, which may be no address at all. -/
def blockAtTarget? (g : Graph) : Int → Option BlockId
  | .ofNat address => g.blockAt? address
  | .negSucc _ => none

/-- Block numbers that a valid graph must know: the entry, the ends of every edge, and the order of the nodes. -/
def references (g : Graph) : List BlockId :=
  entry :: g.blockList.flatMap (fun (_, block) => block.succs ++ block.preds) ++ g.order

/-- Checks that every block the graph refers to is there. -/
def validate (g : Graph) : Except Error Unit :=
  match g.references.find? (!g.hasBlock ·) with
  | some b => .error (.unknownBlock b)
  | none => .ok ()

/-! ## Nodes -/

/-- Appends a node to a block, given its number for nodes that refer to themselves. The node is made first, and then
the block is looked for. -/
def addNodeWith (g : Graph) (b : BlockId) (type : ValueType) (make : NodeId → Ssa.Op) :
    Except Error (NodeId × Graph) := do
  let id := g.nodes.size
  let g := { g with nodes := g.nodes.push { block := b, type, op := make id } }
  return (id, ← g.editBlock b fun block => { block with nodes := block.nodes.push id })

def addNode (g : Graph) (b : BlockId) (type : ValueType) (op : Ssa.Op) : Except Error (NodeId × Graph) :=
  g.addNodeWith b type fun _ => op

/-- Follows aliases for a number of steps. -/
def resolveWith (aliases : Std.TreeMap NodeId NodeId) : Nat → NodeId → NodeId
  | 0, id => id
  | fuel + 1, id =>
    match aliases[id]? with
    | some next => resolveWith aliases fuel next
    | none => id

/-- The node that stands for a node after all redirections. A chain of aliases that does not run in a circle is
no longer than their number. -/
def resolve (g : Graph) (id : NodeId) : NodeId :=
  resolveWith g.aliases g.aliases.size id

/-- Redirects a node to another one. -/
def addAlias (g : Graph) (id target : NodeId) : Graph :=
  { g with aliases := g.aliases.insert id target }

def isAliased (g : Graph) (id : NodeId) : Bool :=
  g.aliases.contains id

/-- A node by its number, whether or not another one stands for it. -/
def node? (g : Graph) (id : NodeId) : Option Ssa.Node :=
  g.nodes[id]?

/-- A node that has to be there. -/
def getNode (g : Graph) (id : NodeId) : Except Error Ssa.Node :=
  match g.node? id with
  | some node => .ok node
  | none => .error (.absent (.node id))

/-- The node that stands for a number. -/
def getResolved (g : Graph) (id : NodeId) : Except Error Ssa.Node :=
  g.getNode (g.resolve id)

/-- Slot and arguments of a merge by its number. -/
def merge? (g : Graph) (id : NodeId) : Option (Slot × List NodeId) :=
  (g.node? id).bind (·.op.merge?)

/-- The merges listed in a block. -/
def mergesOf (g : Graph) (b : BlockId) : List NodeId :=
  match g.block? b with
  | none => []
  | some block => block.nodes.toList.filter fun id => (g.merge? id).isSome

/-- The merges listed in a block. The block and all nodes that it lists have to be there. -/
def getMerges (g : Graph) (b : BlockId) : Except Error (List NodeId) := do
  let nodes ← (← g.getBlock b).nodes.toList.mapM fun id => return (id, ← g.getNode id)
  return (nodes.filter (·.2.op.isMerge)).map (·.1)

/-! ## Register instructions -/

/-- Makes a register instruction that stands in no block, under the next number. -/
def newInstr (g : Graph) (instr : Machine.Instr) : InstrId × Graph :=
  let id := g.instrs.size
  (id, { g with instrs := g.instrs.push ⟨id, instr⟩ })

/-- Appends a register instruction to a block. The instruction is made first, and then the block is looked for. -/
def appendInstr (g : Graph) (b : BlockId) (instr : Machine.Instr) : Except Error (InstrId × Graph) := do
  let (id, g) := g.newInstr instr
  return (id, ← g.editBlock b fun block => { block with code := block.code.push id })

/-- The line of the table at a position, with the number that it carries. -/
def line? (g : Graph) (id : InstrId) : Option Machine.Line :=
  g.instrs[id]?

/-- A line that has to be there. -/
def getLine (g : Graph) (id : InstrId) : Except Error Machine.Line :=
  match g.line? id with
  | some line => .ok line
  | none => .error (.absent (.instruction id))

def instr? (g : Graph) (id : InstrId) : Option Machine.Instr :=
  (g.line? id).map (·.instr)

def modifyInstr (g : Graph) (id : InstrId) (f : Machine.Instr → Machine.Instr) : Graph :=
  { g with instrs := g.instrs.modify id (Machine.Line.modify f) }

/-- A fresh virtual register. -/
def newRegister (g : Graph) : Register × Graph :=
  (Register.virtual g.registers, { g with registers := g.registers + 1 })

/-- Register instructions in the order of the blocks. -/
def placed (g : Graph) : List InstrId :=
  g.blockList.flatMap fun (_, block) => block.code.toList

/-- A table while its instructions are numbered anew: what is left of the old one, and the new one so far. -/
structure Renumbering where
  old : Array (Option Machine.Line)
  lines : Array Machine.Line := #[]

namespace Renumbering

/-- Takes an instruction out of the old table, gives it the next number and puts it into the new table. The number of
an instruction that is not there, or not any more, stays what it was. -/
def take (s : Renumbering) (id : InstrId) : InstrId × Renumbering :=
  match s.old[id]?.join with
  | some line =>
    let next := s.lines.size
    (next, { old := s.old.setIfInBounds id none, lines := s.lines.push { line with id := next } })
  | none => (id, s)

/-- Takes the instructions of a block in their order. -/
def takeAll (s : Renumbering) : List InstrId → List InstrId × Renumbering
  | [] => ([], s)
  | id :: ids =>
    let (id, s) := s.take id
    let (ids, s) := s.takeAll ids
    (id :: ids, s)

/-- Numbers the instructions of a block anew. -/
def block (s : Renumbering) (block : Block) : Block × Renumbering :=
  let (code, s) := s.takeAll block.code.toList
  ({ block with code := code.toArray }, s)

end Renumbering

/-- Numbers the placed register instructions anew, block by block, and drops the others. -/
def renumber (g : Graph) : Graph :=
  let (blocks, s) := g.blockList.foldl
    (fun (blocks, s) (b, block) =>
      let (block, s) := s.block block
      (blocks.insert b block, s))
    (g.blocks, ({ old := g.instrs.map some } : Renumbering))
  { g with blocks, instrs := s.lines }

end Graph

end Destack
