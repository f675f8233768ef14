import Std.Data.TreeSet
import Destack.Pass

/-!
# Cleaning up merges

The merges at the head of a loop are made before the loop is built. Once it is, each of their arguments is set to the
node that the predecessor leaves in the slot. Then merges that can only ever have one value are redirected to it, over
and over, since taking one away can make another one trivial.
-/

namespace Destack.Ssa

/-- What a clean-up did. -/
structure MergeSummary where
  /-- Arguments set to the predecessor's node. -/
  patched : Nat
  /-- Merges redirected. -/
  elided : Nat
deriving DecidableEq, Repr

namespace Merge

/-! ## Arguments of loop heads -/

/-- Arguments in place of which a known node of the frame is put. -/
def patchArgs : List NodeId → List (Option NodeId) → List NodeId
  | arg :: args, value :: values => value.getD arg :: patchArgs args values
  | args, _ => args

/-- Number of places at which two lists differ. -/
def changes (old new : List NodeId) : Nat :=
  (old.zip new).countP fun (a, b) => a != b

/-- Patches one merge, given the exit frames of the predecessors of its block. -/
def patchMerge (exits : List Frame) (acc : Nat × Graph) (id : NodeId) : Nat × Graph :=
  let (patched, g) := acc
  match g.merge? id with
  | some (slot, args) =>
    let args' := patchArgs args (exits.map (·.slot? slot))
    (patched + changes args args',
      { g with nodes := g.nodes.modify id fun node => { node with op := .merge slot args' } })
  | none => (patched, g)

/-- Patches the merges of a block that is the head of a loop. -/
def patchHead (acc : Nat × Graph) (b : BlockId) : Except Error (Nat × Graph) := do
  let block ← acc.2.getBlock b
  if block.isHead then
    let exits ← block.preds.mapM fun p => return (← acc.2.getBlock p).exit
    return (← acc.2.getMerges b).foldl (patchMerge exits) acc
  else return acc

/-! ## Trivial merges -/

/-- Whether a merge, whose first other argument is known, has no third one. -/
def onlyValue? (me : NodeId) : Option NodeId → List NodeId → Option NodeId
  | value, [] => value
  | value, arg :: args =>
    if arg = me then onlyValue? me value args
    else
      match value with
      | none => onlyValue? me (some arg) args
      | some v => if v = arg then onlyValue? me value args else none

/-- The one node other than itself that a merge can stand for. -/
def singleValue? (g : Graph) (id : NodeId) : Option NodeId :=
  match g.merge? id with
  | some (_, args) => onlyValue? id none (args.map g.resolve)
  | none => none

/-- A round of elision: merges taken away so far, and the work as it stands. -/
structure Round where
  elided : Nat
  work : Work

/-- Redirects a merge if it is trivial, and adds it to those redirected before. -/
def redirect (acc : List NodeId × Graph) (id : NodeId) : List NodeId × Graph :=
  let (gone, g) := acc
  match singleValue? g id with
  | some value => (id :: gone, g.addAlias id value)
  | none => (gone, g)

/-- Redirects the trivial merges of a block and takes them off its list. -/
def elideBlock (r : Round) (b : BlockId) : Except Error Round := do
  let (gone, g) := (← r.work.graph.getMerges b).foldl redirect ([], r.work.graph)
  let goneSet := Std.TreeSet.ofList gone
  let graph ← g.editBlock b fun block => { block with nodes := block.nodes.filter (!goneSet.contains ·) }
  return { elided := r.elided + gone.length, work := { graph, stats := r.work.stats.addMergesElided gone.length } }

/-- One pass over all blocks. -/
def elideOnce (w : Work) : Except Error Round :=
  w.graph.order.foldlM elideBlock ⟨0, w⟩

/-- Repeats passes until one takes nothing away. Every pass but the last takes away a merge, so there are no more
passes than nodes. -/
def elideAll : Nat → Work → Except Error Round
  | 0, w => return ⟨0, w⟩
  | fuel + 1, w => do
    let round ← elideOnce w
    if round.elided = 0 then return round
    else
      let rest ← elideAll fuel round.work
      return { rest with elided := round.elided + rest.elided }

end Merge

/-- Patches the merges of loop heads and redirects trivial merges. -/
def cleanMerges : Pass Work MergeSummary := do
  Pass.lift (← get).graph.validate
  let w ← get
  let (patched, graph) ← Pass.lift (w.graph.order.foldlM Merge.patchHead (0, w.graph))
  let round ← Pass.lift (Merge.elideAll (graph.nodes.size + 1) { w with graph })
  set round.work
  return { patched, elided := round.elided }

end Destack.Ssa
