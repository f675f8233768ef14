import Destack.Convention
import Destack.Machine.EdgeMoves
import Destack.Pass

/-!
# Lowering nodes to register instructions

Every node is lowered once: its instructions go to the end of the block that owns it, and the register that holds
its value is remembered. Operands are lowered before the node that uses them; the arguments of a merge are not, which
is what lets values go round a loop. When all nodes are lowered, the merges become moves at the end of the
predecessors.

The pass changes the graph and the statistics as it goes, and what it did before a failure stays.
-/

namespace Destack.Machine

/-- What became of a node. -/
structure Lowered where
  /-- The instruction that stands for the node, if it has any. -/
  instr : Option InstrId
  /-- The register of its value, if it has one. -/
  register : Option Register
deriving DecidableEq, Repr

/-- A literal in the data segment. -/
structure DataEntry where
  label : String
  value : String
deriving DecidableEq, Repr

/-- The state of the pass. -/
structure LowerState where
  graph : Graph
  stats : Statistics
  /-- Put in front of data labels. -/
  labelPrefix : String
  lowered : Std.TreeMap NodeId Lowered := ∅
  data : Array DataEntry := #[]

/-- What became of a node or of the one that stands for it. -/
def LowerState.lowered? (s : LowerState) (id : NodeId) : Option Lowered :=
  s.lowered[s.graph.resolve id]?

abbrev LowerM := Pass LowerState

namespace LowerM

/-! ## Emitting instructions -/

def newRegister : LowerM Register :=
  modifyGet fun s =>
    let (r, graph) := s.graph.newRegister
    (r, { s with graph })

/-- Appends an instruction to a block, which has to be there. -/
def append (b : BlockId) (op : Op) (reads : List Register) (write : Option Register) : LowerM InstrId := do
  let s ← get
  let (id, graph) ← Pass.lift (s.graph.appendInstr b ⟨op, reads, write⟩)
  set { s with graph }
  return id

/-- Appends an instruction that puts a value into a fresh register. -/
def value (b : BlockId) (op : Op) (reads : List Register) : LowerM Lowered := do
  let r ← newRegister
  let id ← append b op reads (some r)
  return ⟨some id, some r⟩

/-- Appends an instruction without a value. -/
def effect (b : BlockId) (op : Op) (reads : List Register) : LowerM Lowered := do
  let id ← append b op reads none
  return ⟨some id, none⟩

/-- The register of a node that is lowered. -/
def registerOf (id : NodeId) : LowerM Register := do
  let s ← get
  match (s.lowered? id).bind (·.register) with
  | some r => return r
  | none => throw (.lowering (.noRegister (s.graph.resolve id)))

/-- The label of a literal; equal literals share one. -/
def dataLabel (value : String) : LowerM String := do
  let s ← get
  match s.data.find? (·.value = value) with
  | some entry => return entry.label
  | none =>
    let label := s!"{s.labelPrefix}_str{s.data.size}"
    modify fun s => { s with data := s.data.push ⟨label, value⟩ }
    return label

/-! ## Parameters and calls -/

/-- Copies a parameter out of the place where the caller put it. -/
def param (b : BlockId) (index : Nat) : LowerM Lowered :=
  match Location.ofIndex index with
  | .register r => value b .move [r]
  | .stack offset => value b (.loadStack offset) []

/-- Puts one argument of a call in its place. The register that it overwrites, if any, is saved and reported with its
copy. -/
def passArgument (b : BlockId) (source : Register) : Location → LowerM (Option Move)
  | .register r => do
    let copy ← newRegister
    discard <| append b .move [r] (some copy)
    discard <| append b .move [source] (some r)
    return some ⟨copy, r⟩
  | .stack offset => do
    discard <| append b (.storeStack offset) [source] none
    return none

/-- Passes the arguments, calls, moves the result out and restores the registers that the arguments took. -/
def call (b : BlockId) (method : Member) (args : List NodeId) (type : ValueType) : LowerM Lowered := do
  let sources ← args.mapM registerOf
  let locations := (List.range sources.length).map Location.ofIndex
  let saved ← (sources.zip locations).filterMapM fun (source, location) => passArgument b source location
  let resultRegister := (Location.ofResult? type).bind (·.register?)
  let id ← append b (.call method) (saved.map (·.target)) resultRegister
  let lowered ← match resultRegister with
    | some r => value b .move [r]
    | none => pure ⟨some id, none⟩
  saved.forM fun m => discard <| append b .move [m.source] (some m.target)
  modify fun s => { s with stats := s.stats.addCall }
  return lowered

/-! ## Nodes -/

/-- Emits a node whose operands are lowered. -/
def emit (node : Ssa.Node) : LowerM Lowered :=
  let b := node.block
  match node.op with
  | .param index => param b index
  | .undefined _ | .merge .. => do return ⟨none, some (← newRegister)⟩
  | .intConst n => value b (.loadConst n) []
  | .nullConst => value b (.loadConst 0) []
  | .stringConst s => do value b (.loadAddress (← dataLabel s)) []
  | .arith op _ lhs rhs => do value b (.binary op) [← registerOf lhs, ← registerOf rhs]
  | .negate v => do value b .negate [← registerOf v]
  | .getStatic field => value b (.loadStatic field) []
  | .putStatic field v => do effect b (.storeStatic field) [← registerOf v]
  | .arrayLoad base offset => do value b .load [← registerOf base, ← registerOf offset]
  | .arrayStore base offset v => do
    effect b .store [← registerOf base, ← registerOf offset, ← registerOf v]
  | .call _ method args => call b method args node.type
  | .branch condition lhs rhs taken fallthrough => do
    effect b (.branch condition taken fallthrough) [← registerOf lhs, ← registerOf rhs]
  | .goto target => effect b (.jump target) []
  | .switch v default cases => do effect b (.switch default cases) [← registerOf v]
  | .ret (some v) => do
    let source ← registerOf v
    discard <| append b .move [source] (some Register.result)
    effect b .ret [Register.result]
  | .ret none => effect b .ret []
  | .raise v => do effect b .raise [← registerOf v]

/-- Lowers a node that stands for itself, after its operands. A chain of operands that does not run in a circle is no
longer than the number of nodes, which bounds the depth. -/
def lowerResolved : Nat → NodeId → LowerM Unit
  | 0, id => throw (.lowering (.notLowered id))
  | depth + 1, id => do
    let s ← get
    if s.lowered.contains id then return
    let node ← Pass.lift (s.graph.getResolved id)
    let operands := if node.op.isMerge then [] else node.op.operands.map s.graph.resolve
    operands.forM (lowerResolved depth)
    let lowered ← emit node
    modify fun s => { s with lowered := s.lowered.insert id lowered }

/-- Lowers a node, or the one that stands for it, unless that is done. -/
def lower (id : NodeId) : LowerM Lowered := do
  let g := (← get).graph
  let root := g.resolve id
  lowerResolved (g.nodes.size + 1) root
  match (← get).lowered[root]? with
  | some lowered => return lowered
  | none => throw (.lowering (.notLowered root))

/-- Lowers every node that is still listed in a block. -/
def lowerAll : LowerM Unit := do
  let g := (← get).graph
  Pass.lift g.validate
  g.order.forM fun b => do
    let block ← Pass.lift ((← get).graph.getBlock b)
    block.nodes.toList.forM fun id => discard (lower id)

/-! ## Merges -/

/-- Registers from which the arguments of a merge are moved to its own, in the order of the predecessors; none where
they are the same. -/
def mergeMoves (b : BlockId) (preds : Nat) (id : NodeId) : LowerM (List (Option Move)) := do
  match (← Pass.lift ((← get).graph.getNode id)).op.merge? with
  | some (_, args) =>
    if args.length ≠ preds then throw (.lowering (.mergeArity id args.length b preds))
    let target ← registerOf id
    args.mapM fun arg => do
      discard (lower arg)
      let source ← registerOf arg
      return if source = target then none else some ⟨source, target⟩
  | none => return List.replicate preds none

/-- Moves for each predecessor, given the moves of each merge. -/
def byPredecessor (preds : List BlockId) (moves : List (List (Option Move))) : List (BlockId × List Move) :=
  preds.zipIdx.map fun (p, k) => (p, moves.filterMap fun row => (row[k]?).join)

/-- Looks up the block at whose end moves are put, and its last instruction, which may be a jump. -/
def lookUpEnd (b : BlockId) : LowerM Unit := do
  let g := (← get).graph
  match (← Pass.lift (g.getBlock b)).code.back? with
  | some last => discard <| Pass.lift (g.getLine last)
  | none => pure ()

/-- Puts the moves of an edge at the end of its source. Nothing is looked up if there are none. -/
def insertMoves (source : BlockId) (moves : List Move) : LowerM Unit := do
  if !moves.isEmpty then lookUpEnd source
  modify fun s =>
    let (count, graph) := s.graph.insertMoves source moves
    { s with graph, stats := s.stats.addEdgeMoves count }

/-- Turns the merges of a block into moves at the end of its predecessors. -/
def resolveBlock (b : BlockId) : LowerM Unit := do
  let g := (← get).graph
  let merges ← Pass.lift (g.getMerges b)
  if merges.isEmpty then return
  let preds := (← Pass.lift (g.getBlock b)).preds
  let moves ← merges.mapM (mergeMoves b preds.length)
  (byPredecessor preds moves).forM fun (p, moves) => insertMoves p moves

/-- Turns every merge that is still listed into moves. -/
def resolveMerges : LowerM Unit := do
  let g := (← get).graph
  Pass.lift g.validate
  g.order.forM resolveBlock

/-- Lowers all nodes, resolves the merges and numbers the instructions by position. -/
def run : LowerM (Array DataEntry) := do
  lowerAll
  resolveMerges
  modify fun s => { s with graph := s.graph.renumber }
  return (← get).data

end LowerM

/-- Runs part of a lowering on the work of a method, from nothing lowered. -/
def lowering {α : Type} (labelPrefix : String) (p : LowerM α) : Pass Work (α × LowerState) :=
  Pass.focus (fun w => ({ graph := w.graph, stats := w.stats, labelPrefix } : LowerState))
    (fun s => { graph := s.graph, stats := s.stats }) p

end Destack.Machine
