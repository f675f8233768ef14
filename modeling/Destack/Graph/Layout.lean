import Std.Data.TreeSet
import Destack.Graph.Basic
import Destack.Pass

/-!
# Block layout

Instructions are cut into blocks at leaders: the first instruction, every jump target, and whatever follows an
instruction that ends a block. Edges are then drawn from the last instruction of each block. If a jump leads to the
very first instruction, an empty block is put in front, so that nothing leads to the entry.
-/

namespace Destack

namespace Layout

/-- Addresses of a sequence of instructions. -/
def addresses (is : List Instruction) : Std.TreeSet Nat :=
  is.foldl (fun set i => set.insert i.address) ∅

/-- The jump targets of an instruction, each of which has to be one of the addresses. -/
def targetsOf (known : Std.TreeSet Nat) (i : Instruction) : Except Error (List Nat) :=
  i.jumpTargets.mapM fun target =>
    if 0 ≤ target ∧ known.contains target.toNat then .ok target.toNat
    else .error (.invalidJump i.address target)

/-- All jump targets, in the order of the instructions. -/
def targets (is : List Instruction) : Except Error (List Nat) := do
  let known := addresses is
  return (← is.mapM (targetsOf known)).flatten

/-- Marks the instructions that start a block: `first` says whether the next one does so for where it stands. -/
def markLeaders (targets : Std.TreeSet Nat) : Bool → List Instruction → List Instruction
  | _, [] => []
  | first, i :: is =>
    { i with leader := first || targets.contains i.address } :: markLeaders targets i.category.endsBlock is

/-- Cuts before each leader; `current` holds the instructions since the last cut, last one first. -/
def cut (current : List Instruction) : List Instruction → List (List Instruction)
  | [] => if current.isEmpty then [] else [current.reverse]
  | i :: is =>
    if i.leader && !current.isEmpty then current.reverse :: cut [i] is else cut (i :: current) is

/-- Adds a block for a run of instructions under the address of the first one. -/
def place (g : Graph) (run : List Instruction) : Graph :=
  let (b, g) := g.addBlock { instructions := run }
  match run.head? with
  | some i => { g with starts := g.starts.insert i.address b }
  | none => g

/-- Blocks for marked instructions, without edges. -/
def partition (entryIsTarget : Bool) (is : List Instruction) : Graph :=
  let front := if entryIsTarget then (Graph.empty.addBlock).2 else Graph.empty
  (cut [] is).foldl place front

end Layout

namespace Graph

/-- The block that a jump of an instruction leads to. -/
def targetBlock (g : Graph) (i : Instruction) (target : Int) : Except Error BlockId :=
  match g.blockAtTarget? target with
  | some b => .ok b
  | none => .error (.invalidJump i.address target)

/-- Changes a block of a graph under construction, which has to be there. -/
def edit (b : BlockId) (f : Block → Block) : Pass Graph Unit := do
  set (← Pass.lift ((← get).editBlock b f))

/-- Adds an edge between two blocks, unless there is one already. -/
def edge (source target : BlockId) : Pass Graph Unit := do
  if !(← get).hasBlock target then throw (.unknownBlock target)
  match (← get).block? source with
  | none => throw (.unknownBlock source)
  | some block =>
    if block.succs.contains target then return
    edit source fun b => { b with succs := b.succs ++ [target] }
    edit target fun b => if b.preds.contains source then b else { b with preds := b.preds ++ [source] }

/-- Adds an edge for each jump target of an instruction. -/
def jumpEdges (b : BlockId) (i : Instruction) : Pass Graph Unit :=
  i.jumpTargets.forM fun target => do
    edge b (← Pass.lift ((← get).targetBlock i target))

/-- Adds an edge to the block that follows, if there is one. -/
def fallThrough (b : BlockId) (next : Option BlockId) (otherwise : Error) : Pass Graph Unit :=
  match next with
  | some n => edge b n
  | none => throw otherwise

/-- Adds the edges that leave a block. `next` is the block that follows it. -/
def connectBlock (b : BlockId) (next : Option BlockId) : Pass Graph Unit := do
  let block ← Pass.lift ((← get).getBlock b)
  match block.instructions.getLast? with
  | none => fallThrough b next (.layout (.noSuccessor b))
  | some last =>
    match last.category with
    | .conditionalBranch => do
      fallThrough b next (.fallsOffEnd last.address)
      jumpEdges b last
    | .goto | .subroutine | .switch => jumpEdges b last
    | .methodReturn | .raise | .subroutineReturn => pure ()
    | .other => fallThrough b next (.fallsOffEnd last.address)

/-- Adds the edges that leave the blocks of a list, each block being followed by the next of the list. -/
def connectAll : List BlockId → Pass Graph Unit
  | [] => pure ()
  | b :: bs => do
    connectBlock b bs.head?
    connectAll bs

/-- Draws the edges of all blocks. Edges drawn before a failure stay. -/
def connect : Pass Graph Unit := do
  connectAll (← get).blockIds

/-- The connected blocks of a sequence of instructions. -/
def ofInstructions (is : List Instruction) : Except Error Graph := do
  let some first := is.head? | throw (.layout .noInstructions)
  let targets ← Layout.targets is
  let marked := Layout.markLeaders (targets.foldl (·.insert ·) ∅) true is
  match connect (Layout.partition (targets.contains first.address) marked) with
  | .ok _ g => return g
  | .error e _ => throw e

end Graph

end Destack
