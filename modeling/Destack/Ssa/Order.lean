import Destack.Graph.Dominance

/-!
# Order of construction

Nodes are built block by block. A block comes after every predecessor that does not close a loop, so the frames at
the end of those are known when it is entered. The order is breadth-first from the entry.
-/

namespace Destack.Ssa.Order

/-- Predecessors of each block that have to come before it. -/
def waits (g : Graph) : Std.TreeMap BlockId Nat :=
  g.blocks.map fun b block => block.preds.countP fun p => !g.isBackEdge p b

/-- A walk over the blocks: how many predecessors each block still waits for, and the blocks that wait for none. -/
structure Walk where
  waits : Std.TreeMap BlockId Nat
  ready : List BlockId

/-- Takes note that the source of an edge has been placed. -/
def Walk.release (g : Graph) (source : BlockId) (w : Walk) (target : BlockId) : Walk :=
  if g.isBackEdge source target then w
  else
    match w.waits[target]? with
    | none => w
    | some count =>
      let w := { w with waits := w.waits.insert target (count - 1) }
      if count - 1 = 0 then { w with ready := w.ready ++ [target] } else w

/-- Places up to a number of blocks, each followed by the blocks it sets free. `placed` holds the blocks before, last
one first. -/
def walk (g : Graph) : Nat → Walk → List BlockId → Except Error (List BlockId)
  | 0, _, placed => return placed.reverse
  | fuel + 1, w, placed =>
    match w.ready with
    | [] => return placed.reverse
    | b :: ready => do
      let block ← g.getBlock b
      walk g fuel (block.succs.foldl (Walk.release g b) { w with ready }) (b :: placed)

/-- The order in which to build the blocks. It fails if some block is never set free. -/
def compute (g : Graph) : Except Error (List BlockId) := do
  let total := g.blockCount
  let order ← walk g (total + 1) ⟨waits g, [Graph.entry]⟩ []
  if order.length = total then return order
  else throw (.layout (.irreducible (total - order.length) total))

end Destack.Ssa.Order
