import Destack.Graph.Basic
import Destack.Proofs.World

/-!
# Running nodes

Nodes run block by block on an environment, which holds the latest value of each node that has run. A block is entered
from the one just left: its merges all take the value of the argument that belongs to that predecessor, at once, and
then the other nodes run in the order in which they are listed, up to the first that leads to another block or ends
the run.

How an operand is looked up is a parameter, since a node that was redirected is read through the node that stands for
it (`Graph.read`).
-/

namespace Destack.Ssa

/-- Latest values of the nodes that have run. -/
abbrev Env (W : World) := NodeId → Option W.Value

/-- How an operand is looked up. -/
abbrev Reader (W : World) := Env W → NodeId → Option W.Value

/-- Operands are looked up as they are. -/
def direct {W : World} : Reader W := fun ρ => ρ

namespace Env

variable {W : World}

/-- Before anything has run. -/
def empty : Env W := fun _ => none

def set (ρ : Env W) (id : NodeId) (v : W.Value) : Env W :=
  fun k => if k = id then some v else ρ k

@[simp] theorem set_self (ρ : Env W) (id : NodeId) (v : W.Value) : ρ.set id v id = some v := by
  simp [set]

theorem set_of_ne (ρ : Env W) {id k : NodeId} (v : W.Value) (h : k ≠ id) : ρ.set id v k = ρ k := by
  simp [set, h]

end Env

variable (W : World)

/-! ## Single nodes -/

/-- The value of a node that is neither a merge nor in control. The value of an effect is of no use. -/
def eval (inputs : Inputs W.Value) (get : NodeId → Option W.Value) : Op → Exec W W.Value
  | .param index => pure (inputs.arg index)
  | .undefined slot => pure (inputs.unset slot)
  | .intConst n => pure (W.int n)
  | .nullConst => pure (W.int 0)
  | .stringConst s => pure (W.literal s)
  | .arith op _ lhs rhs => do Exec.arith op (← Exec.need (get lhs)) (← Exec.need (get rhs))
  | .negate value => do return W.negate (← Exec.need (get value))
  | .getStatic field => Exec.ask (.getStatic field)
  | .putStatic field value => do Exec.ask (.putStatic field (← Exec.need (get value)))
  | .call _ method args => do Exec.ask (.call method (← Exec.need (args.mapM get)))
  | .arrayLoad base offset => do
    Exec.ask (.load (W.address (← Exec.need (get base)) (← Exec.need (get offset))))
  | .arrayStore base offset value => do
    let address := W.address (← Exec.need (get base)) (← Exec.need (get offset))
    Exec.ask (.store address (← Exec.need (get value)))
  | .branch .. | .goto .. | .switch .. | .ret .. | .raise .. | .merge .. => throw .stuck

/-- The block that a control node leads to. -/
def follow (get : NodeId → Option W.Value) : Op → Exec W BlockId
  | .branch condition lhs rhs taken fallthrough => do
    return W.choose condition (← Exec.need (get lhs)) (← Exec.need (get rhs)) taken fallthrough
  | .goto target => pure target
  | .switch value default cases => do return W.select (← Exec.need (get value)) default cases
  | .ret none => throw (.returned none)
  | .ret (some value) => do throw (.returned (some (← Exec.need (get value))))
  | .raise value => do throw (.raised (← Exec.need (get value)))
  | _ => throw .stuck

/-! ## Blocks -/

variable (read : Reader W) (g : Graph) (inputs : Inputs W.Value)

/-- Runs listed nodes, merges apart, up to the first control node, and gives the block that it leads to. -/
def runNodes : List NodeId → Env W → Exec W (Env W × BlockId)
  | [], _ => throw .stuck
  | id :: ids, ρ =>
    match g.node? id with
    | none => throw .stuck
    | some node =>
      if node.op.isMerge then runNodes ids ρ
      else if node.op.isControl then do return (ρ, ← follow W (read ρ) node.op)
      else do runNodes ids (ρ.set id (← eval W inputs (read ρ) node.op))

/-- A run about to enter a block. -/
structure Point where
  /-- The block just left, if any. -/
  pred : Option BlockId
  block : BlockId
  env : Env W

end Destack.Ssa

namespace Destack


/-- The argument of a merge of a block that belongs to a predecessor. -/
def Graph.argFrom? (g : Graph) (b pred : BlockId) (id : NodeId) : Option NodeId := do
  let (_, args) ← g.merge? id
  args[← (g.preds b).idxOf? pred]?

/-- Operands are read through the nodes that stand for them. -/
def Graph.read {W : World} (g : Graph) : Ssa.Reader W :=
  fun ρ id => ρ (g.resolve id)

namespace Ssa

variable (W : World) (read : Reader W) (g : Graph) (inputs : Inputs W.Value)

variable {W} in
/-- The environment after the merges of a block have taken their values. -/
def Point.merged (p : Point W) : Env W := fun id =>
  if id ∈ g.mergesOf p.block then
    (p.pred.bind fun pred => g.argFrom? p.block pred id).bind (read p.env)
  else p.env id

/-- Runs a block. -/
def step (p : Point W) : Exec W (Point W) := do
  let block ← Exec.need (g.block? p.block)
  let (ρ, next) ← runNodes W read g inputs block.nodes.toList (p.merged read g)
  return ⟨some p.block, next, ρ⟩

/-- Where a run starts. -/
def Point.start : Point W := ⟨none, Graph.entry, Env.empty⟩

/-- The run after a number of blocks. -/
def run (n : Nat) : Exec W (Point W) :=
  Exec.iterate (step W read g inputs) n (Point.start W)

end Ssa

end Destack
