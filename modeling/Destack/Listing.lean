import Destack.Method

/-!
# Listings

The three views of a compiled method: its blocks with their instructions, with their nodes, and with their register
instructions followed by the data segment. Each block starts with a line that names its predecessors.
-/

namespace Destack.Compiled

/-- First line of a block. -/
def header (c : Compiled) (b : BlockId) (block : Block) : String :=
  let preds := if block.preds.isEmpty then ""
    else " ; preds " ++ ", ".intercalate (block.preds.map fun p => s!"B{p}")
  let head := if block.isHead then " ; loop head" else ""
  c.blockLabel b ++ ":" ++ preds ++ head

/-- Lines, each of them ended. -/
def unlines (lines : List String) : String :=
  String.join (lines.map (· ++ "\n"))

/-- Blocks with their instructions. -/
def blockListing (c : Compiled) : String :=
  unlines <| c.graph.blockList.flatMap fun (b, block) =>
    c.header b block :: block.instructions.map fun i => "  " ++ i.render

/-- A node by its number as it stands in a listing. -/
def nodeLine (c : Compiled) (id : NodeId) : String :=
  let id := c.graph.resolve id
  "  " ++ ((c.graph.node? id).map (·.render id)).getD ""

/-- Blocks with their nodes, in the order in which they were built. -/
def nodeListing (c : Compiled) : String :=
  unlines <| c.graph.order.flatMap fun b =>
    match c.graph.block? b with
    | some block => c.header b block :: block.nodes.toList.map c.nodeLine
    | none => []

/-- An instruction by its number as it stands in a listing. -/
def instrLine (c : Compiled) (id : InstrId) : String :=
  "  " ++ ((c.graph.line? id).map (·.render)).getD ""

/-- Blocks with their register instructions, and the data segment. -/
def codeListing (c : Compiled) : String :=
  unlines <|
    (c.graph.blockList.flatMap fun (b, block) => c.header b block :: block.code.toList.map c.instrLine) ++
    c.data.toList.map fun entry => s!"{entry.label}: .string {Text.quoted entry.value}"

end Destack.Compiled
