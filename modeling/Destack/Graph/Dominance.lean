import Std.Data.TreeSet
import Destack.Graph.Basic

/-!
# Dominance

Each block but the entry has an immediate dominator once the flow analysis has run. A block is dominated by the
blocks on its chain of dominators, itself included. A chain that does not run in a circle visits each block once,
so the number of blocks bounds it.
-/

namespace Destack.Graph

def dominator? (g : Graph) (b : BlockId) : Option BlockId :=
  (g.block? b).bind (·.dominator)

/-- The first blocks on the chain of dominators of a block. -/
def chainWith (g : Graph) : Nat → BlockId → List BlockId
  | 0, _ => []
  | fuel + 1, b =>
    match g.dominator? b with
    | some d => b :: chainWith g fuel d
    | none => [b]

/-- The chain of dominators of a block, the block first. -/
def dominators (g : Graph) (b : BlockId) : List BlockId :=
  g.chainWith (g.blockCount + 1) b

/-- The first of the blocks on the chain of dominators that passes a test. -/
def climbWith (g : Graph) (test : BlockId → Bool) : Nat → BlockId → Option BlockId
  | 0, _ => none
  | fuel + 1, b =>
    if test b then some b
    else
      match g.dominator? b with
      | some d => climbWith g test fuel d
      | none => none

/-- The nearest dominator of a block that passes a test. -/
def climb? (g : Graph) (test : BlockId → Bool) (b : BlockId) : Option BlockId :=
  g.climbWith test (g.blockCount + 1) b

theorem climbWith_eq_find? (g : Graph) (test : BlockId → Bool) (fuel : Nat) (b : BlockId) :
    g.climbWith test fuel b = (g.chainWith fuel b).find? test := by
  induction fuel generalizing b with
  | zero => rfl
  | succ fuel ih =>
    simp only [climbWith, chainWith]
    cases g.dominator? b with
    | none => by_cases h : test b <;> simp [h]
    | some d => by_cases h : test b <;> simp [h, ih]

/-- Climbing finds what the whole chain would show. -/
theorem climb?_eq_find? (g : Graph) (test : BlockId → Bool) (b : BlockId) :
    g.climb? test b = (g.dominators b).find? test :=
  g.climbWith_eq_find? test _ b

/-- Whether a block dominates another one; every block dominates itself. -/
def dominates (g : Graph) (a b : BlockId) : Bool :=
  (g.climb? (· == a) b).isSome

/-- Whether an edge leads back to the head of a loop. -/
def isBackEdge (g : Graph) (source target : BlockId) : Bool :=
  ((g.block? target).map (·.isHead)).getD false && g.dominates target source

/-- The first blocks on the chain of dominators of a block. Those blocks have to be there. -/
def getChainWith (g : Graph) : Nat → BlockId → Except Error (List BlockId)
  | 0, _ => return []
  | fuel + 1, b => do
    match (← g.getBlock b).dominator with
    | some d => return b :: (← getChainWith g fuel d)
    | none => return [b]

/-- The first of the blocks on the chain of dominators that passes a test. The blocks before it have to be there. -/
def getClimbWith (g : Graph) (test : BlockId → Bool) : Nat → BlockId → Except Error (Option BlockId)
  | 0, _ => return none
  | fuel + 1, b => do
    if test b then return some b
    match (← g.getBlock b).dominator with
    | some d => getClimbWith g test fuel d
    | none => return none

/-- The nearest block that dominates two blocks. -/
def getCommonDominator (g : Graph) (a b : BlockId) : Except Error BlockId := do
  let chain ← g.getChainWith (g.blockCount + 1) a
  return (← g.getClimbWith chain.contains (g.blockCount + 1) b).getD entry

/-- Every pair of different blocks of which the first dominates the second. -/
def dominancePairs (g : Graph) : List (BlockId × BlockId) :=
  let above : List (BlockId × Std.TreeSet BlockId) :=
    g.blockIds.map fun b => (b, Std.TreeSet.ofList (g.dominators b))
  g.blockIds.flatMap fun a =>
    (above.filter fun (b, dominators) => a ≠ b && dominators.contains a).map fun (b, _) => (a, b)

/-- Every edge that leads back to the head of a loop. -/
def backEdgeList (g : Graph) : List (BlockId × BlockId) :=
  g.blockList.flatMap fun (b, block) =>
    (block.succs.filter fun s => g.isBackEdge b s).map fun s => (b, s)

end Destack.Graph
