/-!
# Statistics

Counts of what was built while methods were compiled, added up over a session, and their report. A session also keeps
the texts that were handed to it, equal ones once.
-/

namespace Destack

/-- Counts by name, in ascending order of the names. -/
abbrev Tally := List (String × Nat)

namespace Tally

/-- Counts one more under a name. -/
def bump (name : String) : Tally → Tally
  | [] => [(name, 1)]
  | (other, count) :: rest =>
    if other = name then (other, count + 1) :: rest
    else if name < other then (name, 1) :: (other, count) :: rest
    else (other, count) :: bump name rest

/-- Sum of all counts. -/
def total (t : Tally) : Nat :=
  (t.map (·.2)).foldr (· + ·) 0

/-- Greatest counts first, and equal counts by name. -/
def ranked (t : Tally) : Tally :=
  t.mergeSort fun a b => decide (b.2 < a.2) || (a.2 == b.2 && decide (a.1 ≤ b.1))

end Tally

structure Statistics where
  methods : Nat := 0
  blocksBuilt : Nat := 0
  blocksPruned : Nat := 0
  loopHeads : Nat := 0
  nodes : Nat := 0
  nodeKinds : Tally := []
  mergesCreated : Nat := 0
  mergesElided : Nat := 0
  instructions : Nat := 0
  largestSize : Nat := 0
  largestName : String := ""
  edgeMoves : Nat := 0
  calls : Nat := 0
deriving DecidableEq, Repr

namespace Statistics

/-- Counts a finished method; a larger one than all before becomes the largest. -/
def addMethod (s : Statistics) (name : String) (size : Nat) : Statistics :=
  let s := { s with methods := s.methods + 1, instructions := s.instructions + size }
  if s.largestSize < size then { s with largestSize := size, largestName := name } else s

def addBlocksBuilt (s : Statistics) (count : Nat) : Statistics :=
  { s with blocksBuilt := s.blocksBuilt + count }

def addBlocksPruned (s : Statistics) (count : Nat) : Statistics :=
  { s with blocksPruned := s.blocksPruned + count }

def addLoopHeads (s : Statistics) (count : Nat) : Statistics :=
  { s with loopHeads := s.loopHeads + count }

def addNode (s : Statistics) (kind : String) : Statistics :=
  { s with nodes := s.nodes + 1, nodeKinds := s.nodeKinds.bump kind }

def addMergeCreated (s : Statistics) : Statistics :=
  { s with mergesCreated := s.mergesCreated + 1 }

def addMergesElided (s : Statistics) (count : Nat) : Statistics :=
  { s with mergesElided := s.mergesElided + count }

def addEdgeMoves (s : Statistics) (count : Nat) : Statistics :=
  { s with edgeMoves := s.edgeMoves + count }

def addCall (s : Statistics) : Statistics :=
  { s with calls := s.calls + 1 }

/-- Kinds of node that the report lists. -/
def reportedKinds : Nat := 10

/-- The lines of the report. -/
def lines (s : Statistics) : List String :=
  ["Compilation Session Statistics:",
    s!"  Methods compiled: {s.methods}",
    s!"  Blocks built: {s.blocksBuilt} ({s.blocksPruned} pruned)",
    s!"  Loop heads: {s.loopHeads}",
    s!"  HIR nodes: {s.nodes}",
    s!"  Merge nodes: {s.mergesCreated} created, {s.mergesElided} elided",
    s!"  LIR instructions: {s.instructions}",
    s!"  Phi moves: {s.edgeMoves}",
    s!"  Calls lowered: {s.calls}"] ++
  (if s.largestName.isEmpty then []
    else [s!"  Largest method: {s.largestName} ({s.largestSize} instructions)"]) ++
  (if s.nodeKinds.isEmpty then []
    else "  HIR breakdown:" ::
      (s.nodeKinds.ranked.take reportedKinds).map fun (kind, count) => s!"    {kind}: {count}")

/-- The report, each line ended. -/
def report (s : Statistics) : String :=
  String.join (s.lines.map (· ++ "\n"))

end Statistics

/-! ## Sessions -/

structure Session where
  stats : Statistics := {}
  /-- Texts in the order in which they were stored. -/
  texts : List String := []

/-- The place of a text, which is stored unless an equal one is. -/
def Session.intern (s : Session) (text : String) : Nat × Session :=
  match s.texts.idxOf? text with
  | some place => (place, s)
  | none => (s.texts.length, { s with texts := s.texts ++ [text] })

end Destack
