import Destack.Graph.Basic

/-!
# Moves on an edge

The values that a block hands to the merges of the next one are moved into their registers at its end. The moves of
one edge are meant to happen at once: a register that is read by one and written by another is first copied to a
fresh register, so that every move reads the old value.
-/

namespace Destack

namespace Machine

/-- A move from a source to a destination register. -/
structure Move where
  source : Register
  target : Register
deriving DecidableEq, Repr

def Move.instr (m : Move) : Instr :=
  { op := .move, reads := [m.source], write := some m.target }

/-- Splits moves into copies of endangered sources and the moves proper, taking fresh registers from a number on. -/
def stage (targets : List Register) : Nat → List Move → List Move × List Move × Nat
  | fresh, [] => ([], [], fresh)
  | fresh, m :: ms =>
    if targets.contains m.source then
      let copy := Register.virtual fresh
      let (copies, moves, next) := stage targets (fresh + 1) ms
      (⟨m.source, copy⟩ :: copies, ⟨copy, m.target⟩ :: moves, next)
    else
      let (copies, moves, next) := stage targets fresh ms
      (copies, m :: moves, next)

/-- The moves of an edge in an order that may run one after the other, with the first register number still free. -/
def sequence (fresh : Nat) (moves : List Move) : List Move × Nat :=
  let (copies, staged, next) := stage (moves.map (·.target)) fresh moves
  (copies ++ staged, next)

/-- A block's instructions with others put ahead of its last one if that is a jump, and at the end otherwise. -/
def insertBeforeJump (g : Graph) (code : Array InstrId) (ids : Array InstrId) : Array InstrId :=
  match code.back? with
  | some last =>
    if ((g.instr? last).map (·.op.isJump)).getD false then (code.pop ++ ids).push last else code ++ ids
  | none => ids

end Machine

namespace Graph

/-- Puts the moves of an edge at the end of its source, and says how many instructions that took. -/
def insertMoves (g : Graph) (source : BlockId) (moves : List Machine.Move) : Nat × Graph :=
  let (sequence, registers) := Machine.sequence g.registers moves
  let ids := Array.range' g.instrs.size sequence.length
  let lines := Machine.numbered g.instrs.size (sequence.map Machine.Move.instr)
  let g := { g with registers, instrs := g.instrs ++ lines.toArray }
  (sequence.length, g.modifyBlock source fun block =>
    { block with code := Machine.insertBeforeJump g block.code ids })

end Graph

end Destack
