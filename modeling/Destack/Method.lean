import Destack.Graph.Flow
import Destack.Instruction.Decode
import Destack.Machine.Lower
import Destack.Ssa.Build
import Destack.Ssa.Merge

/-!
# Compiling a method

A method is decoded, laid out in blocks, analysed, built as nodes, cleaned of trivial merges and lowered. The result
keeps the whole graph, the prefix of its labels and its data segment. Registers can then be substituted at every
instruction by an allocator.
-/

namespace Destack

namespace Method

/-- Owner and name, with everything but ASCII letters and digits replaced by an underscore. -/
def labelPrefix (m : Method) : String :=
  (m.owner ++ "_" ++ m.name).map fun c => if c.isAlphanum then c else '_'

/-- Name under which the method is counted. -/
def qualifiedName (m : Method) : String :=
  m.owner ++ "." ++ m.name ++ m.descriptor

end Method

/-- A lowered method. -/
structure Compiled where
  labelPrefix : String
  graph : Graph
  data : Array Machine.DataEntry

namespace Compiled

/-- Label of a block. -/
def blockLabel (c : Compiled) (b : BlockId) : String :=
  s!"{c.labelPrefix}_B{b}"

/-- Number of register instructions placed in blocks. -/
def size (c : Compiled) : Nat :=
  (c.graph.blockList.map fun (_, block) => block.code.size).foldr (· + ·) 0

/-- Replaces the virtual registers of one instruction by what an allocator names for them at a position. -/
def substitute (lookup : Register → InstrId → Option Register) (position : InstrId) (r : Register) : Register :=
  if r.isVirtual then (lookup r position).getD r else r

/-- Replaces virtual registers by what an allocator names for them at each instruction. The number of an instruction
is its position in the method. -/
def assignRegisters (c : Compiled) (lookup : Register → InstrId → Option Register) : Compiled :=
  { c with
    graph := c.graph.placed.foldl
      (fun g id => g.modifyInstr id (Machine.Instr.mapRegisters (substitute lookup id))) c.graph }

end Compiled

/-- A range of positions at which an allocator keeps a virtual register in another register. Both ends belong to it,
so a range whose end lies before its start is empty. -/
structure Interval where
  virtual : Register
  first : Int
  last : Int
  register : Register
deriving DecidableEq, Repr

/-- The register of the first interval of a virtual register that contains a position. -/
def Interval.lookup (intervals : List Interval) (r : Register) (position : InstrId) : Option Register :=
  (intervals.find? fun i => i.virtual = r ∧ i.first ≤ (position : Int) ∧ (position : Int) ≤ i.last).map (·.register)

/-- Compiles a method. The statistics of what was done stay, also if it fails later on. -/
def compile (table : OperandTable) (pool : ConstantPool) (m : Method) (labelPrefix : String) :
    Pass Statistics Compiled := do
  let instructions ← Pass.lift (Instruction.decode table m.code)
  let graph ← Pass.lift (Graph.ofInstructions instructions)
  modify (·.addBlocksBuilt graph.blockCount)
  let (flow, graph) ← Pass.lift graph.analyze
  modify fun s => (s.addBlocksPruned flow.pruned).addLoopHeads flow.loopHeads
  let ((data, _), work) ← Pass.focus (fun stats => ({ graph, stats } : Work)) (·.stats) do
    Ssa.build pool m
    discard Ssa.cleanMerges
    Machine.lowering labelPrefix Machine.LowerM.run
  let compiled : Compiled := { labelPrefix, graph := work.graph, data }
  modify (·.addMethod m.qualifiedName compiled.size)
  return compiled

end Destack
