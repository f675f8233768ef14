import Destack.Graph.Dominance

/-!
# Flow analysis

The analysis runs in three steps from the entry. A depth-first search marks the heads and tails of loops: an edge to
a block on the current path closes a loop. Blocks that the search did not reach are taken away. A second walk then
finds the immediate dominators: it narrows a block's dominator each time an edge leads to it, and goes on from a block
only when all its predecessors but those on back edges have been seen.
-/

namespace Destack

/-- What an analysis found. -/
structure FlowSummary where
  loopHeads : Nat
  pruned : Nat
deriving DecidableEq, Repr

namespace Graph

/-- Forgets what an earlier analysis found out about loops. -/
def clearFlow (g : Graph) : Graph :=
  g.mapBlocks fun b =>
    { b with isHead := false, isTail := false, visited := false, active := false, loopIndex := none, backEdges := 0 }

/-! ## Loops -/

/-- Marks the head of a loop, which gets a number the first time, and the block that leads back to it. -/
def markLoop (g : Graph) (head : BlockId) (tail : Option BlockId) : Except Error Graph := do
  let block ← g.getBlock head
  let number := g.loops
  let g := if block.loopIndex.isNone then { g with loops := number + 1 } else g
  let g ← g.editBlock head fun b =>
    { b with loopIndex := b.loopIndex.orElse fun _ => some number, isHead := true, backEdges := b.backEdges + 1 }
  match tail with
  | some t => g.editBlock t fun b => { b with isTail := true }
  | none => return g

/-- Depth-first search for loops from a block that an edge leads to. The path is no longer than the number of
blocks, which bounds the depth. -/
def searchLoopsFrom : Nat → BlockId → Option BlockId → Graph → Except Error Graph
  | 0, _, _, g => return g
  | depth + 1, b, pred, g => do
    let block ← g.getBlock b
    if block.active then g.markLoop b pred
    else if block.visited then return g
    else
      let g ← g.editBlock b fun block => { block with visited := true, active := true }
      let g ← block.succs.foldlM (fun g s => searchLoopsFrom depth s (some b) g) g
      g.editBlock b fun block => { block with active := false }

def searchLoops (g : Graph) : Except Error Graph :=
  searchLoopsFrom (g.blockCount + 1) entry none g

/-! ## Unreachable blocks -/

/-- Whether a block is kept by pruning: the search for loops did not pass it by. -/
def survives (g : Graph) (b : BlockId) : Bool :=
  ((g.block? b).map (·.visited)).getD true

/-- Takes away the blocks that the search for loops did not reach, also from the lists of predecessors. -/
def prune (g : Graph) : Nat × Graph :=
  let dead := (g.blockList.filter fun (_, block) => !block.visited).map (·.1)
  if dead.isEmpty then (0, g)
  else
    let pruned := dead.foldl eraseBlock g
    (dead.length, pruned.mapBlocks fun b => { b with preds := b.preds.filter g.survives })

/-! ## Dominators -/

/-- Makes every block wait for all its predecessors. -/
def clearDominators (g : Graph) : Graph :=
  g.mapBlocks fun b => { b with awaited := b.preds.length, dominator := none }

/-- The dominator of a block that an edge leads to: that of the edges before, narrowed to what also dominates the
source of this one. -/
def getNarrowed (g : Graph) (source target : BlockId) : Except Error BlockId := do
  match (← g.getBlock target).dominator with
  | some current => g.getCommonDominator current source
  | none => return source

/-- Takes note of an edge to a block: it waits for one predecessor less, and its dominator is narrowed. -/
def noteEdge (g : Graph) (source target : BlockId) : Except Error Graph := do
  let dominator ← g.getNarrowed source target
  g.editBlock target fun b => { b with awaited := b.awaited - 1, dominator := some dominator }

/-- Takes note of the edge that leads to a block, unless the walk starts there. -/
def noteFrom (g : Graph) : Option BlockId → BlockId → Except Error Graph
  | some p, b => g.noteEdge p b
  | none, _ => return g

/-- Walks from a block that an edge leads to. Where the lists of predecessors and successors belong together, a block
is gone on from once. Where they do not, a path that comes to a block again has passed the head of a loop in between,
and a head is passed once, so the square of the number of blocks bounds the depth. -/
def walkDominatorsFrom : Nat → BlockId → Option BlockId → Graph → Except Error Graph
  | 0, _, _, g => return g
  | depth + 1, b, pred, g => do
    let g ← g.noteFrom pred b
    let block ← g.getBlock b
    if block.awaited = block.backEdges then
      block.succs.foldlM (fun g s => walkDominatorsFrom depth s (some b) g) g
    else return g

def walkDominators (g : Graph) : Except Error Graph :=
  walkDominatorsFrom ((g.blockCount + 1) * (g.blockCount + 1)) entry none g.clearDominators

/-! ## The whole analysis -/

def loopHeadCount (g : Graph) : Nat :=
  g.blockList.countP fun (_, block) => block.isHead

/-- Finds loops, prunes and computes dominators. A graph that refers to an unknown block is left alone. -/
def analyze (g : Graph) : Except Error (FlowSummary × Graph) := do
  g.validate
  let (pruned, g) := (← g.clearFlow.searchLoops).prune
  let g ← g.walkDominators
  return ({ loopHeads := g.loopHeadCount, pruned }, g)

end Graph

end Destack
