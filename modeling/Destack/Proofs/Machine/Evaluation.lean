import Destack.Machine.Lower
import Destack.Proofs.World

/-!
# Running register code

Register instructions run on registers, an area of incoming arguments that is only read, and an area of outgoing
arguments that fills up until the next call. A callee finds its arguments where the calling convention says, in the
registers that the call reads and in the outgoing area. It leaves its result in the register that the call writes,
any values in the other physical registers, and the virtual registers as they were.
-/

namespace Destack

/-- The register instructions of a block. -/
def Graph.codeOf (g : Graph) (b : BlockId) : List Machine.Instr :=
  (((g.block? b).map (·.code.toList)).getD []).filterMap g.instr?

end Destack

namespace Destack.Machine

/-- What register code runs in, besides the world: the incoming arguments, the literals, and what a callee leaves in
the physical registers, given everything that happened up to the call. -/
structure Setting (W : World) where
  incoming : Int → W.Value
  data : Array DataEntry
  scratch : List (Event W.Value) → Register → W.Value

structure State (V : Type) where
  regs : Register → V
  /-- Outgoing arguments by offset, last one first. -/
  outgoing : List (Int × V)

namespace State

variable {V : Type}

/-- Writes a register. -/
def write (s : State V) (r : Register) (v : V) : State V :=
  { s with regs := fun k => if k = r then v else s.regs k }

@[simp] theorem write_regs_self (s : State V) (r : Register) (v : V) : (s.write r v).regs r = v := by
  simp [write]

theorem write_regs_of_ne (s : State V) {r k : Register} (v : V) (h : k ≠ r) :
    (s.write r v).regs k = s.regs k := by
  simp [write, h]

@[simp] theorem write_outgoing (s : State V) (r : Register) (v : V) : (s.write r v).outgoing = s.outgoing := rfl

/-- The argument of a call at a position, given the registers that the call reads. -/
def argument? (s : State V) (reads : List Register) (index : Nat) : Option V :=
  match Location.ofIndex index with
  | .register r => if r ∈ reads then some (s.regs r) else none
  | .stack offset => s.outgoing.lookup offset

/-- All arguments of a call. -/
def arguments? (s : State V) (reads : List Register) : Option (List V) :=
  (List.range (reads.length + s.outgoing.length)).mapM (s.argument? reads)

/-- The state after a call. -/
def returned (s : State V) (scratch : Register → V) (write : Option Register) (v : V) : State V where
  regs r := if r.isVirtual then s.regs r else if write = some r then v else scratch r
  outgoing := []

end State

variable (W : World) (m : Setting W)

/-- Runs an instruction that is not in control. -/
def execute (s : State W.Value) (i : Instr) : Exec W (State W.Value) :=
  match i.op, i.reads, i.write with
  | .move, [a], some d => pure (s.write d (s.regs a))
  | .loadConst n, [], some d => pure (s.write d (W.int n))
  | .loadAddress label, [], some d => do
    let entry ← Exec.need (m.data.find? (·.label = label))
    return s.write d (W.literal entry.value)
  | .binary op, [a, b], some d => do return s.write d (← Exec.arith op (s.regs a) (s.regs b))
  | .negate, [a], some d => pure (s.write d (W.negate (s.regs a)))
  | .loadStatic field, [], some d => do return s.write d (← Exec.ask (.getStatic field))
  | .storeStatic field, [a], none => do
    discard <| Exec.ask (.putStatic field (s.regs a))
    return s
  | .load, [a, b], some d => do return s.write d (← Exec.ask (.load (W.address (s.regs a) (s.regs b))))
  | .store, [a, b, c], none => do
    discard <| Exec.ask (.store (W.address (s.regs a) (s.regs b)) (s.regs c))
    return s
  | .loadStack offset, [], some d => pure (s.write d (m.incoming offset))
  | .storeStack offset, [a], none => pure { s with outgoing := (offset, s.regs a) :: s.outgoing }
  | .call method, reads, write => do
    let v ← Exec.ask (.call method (← Exec.need (s.arguments? reads)))
    return s.returned (m.scratch (← get)) write v
  | _, _, _ => throw .stuck

/-- The block that a control instruction leads to. -/
def follow (s : State W.Value) (i : Instr) : Exec W BlockId :=
  match i.op, i.reads with
  | .jump target, [] => pure target
  | .branch condition taken fallthrough, [a, b] =>
    pure (W.choose condition (s.regs a) (s.regs b) taken fallthrough)
  | .switch default cases, [a] => pure (W.select (s.regs a) default cases)
  | .ret, [] => throw (.returned none)
  | .ret, [a] => throw (.returned (some (s.regs a)))
  | .raise, [a] => throw (.raised (s.regs a))
  | _, _ => throw .stuck

/-- Runs instructions up to the first one in control, and gives the block that it leads to. -/
def runCode : List Instr → State W.Value → Exec W (State W.Value × BlockId)
  | [], _ => throw .stuck
  | i :: is, s =>
    if i.op.isControl then do return (s, ← follow W s i)
    else do runCode is (← execute W m s i)

/-- A run about to enter a block. -/
structure Point where
  block : BlockId
  state : State W.Value

/-- Runs a block of a graph. -/
def step (g : Graph) (p : Point W) : Exec W (Point W) := do
  let (s, next) ← runCode W m (g.codeOf p.block) p.state
  return ⟨next, s⟩

/-- The run after a number of blocks, from the entry and a state. -/
def run (g : Graph) (s : State W.Value) (n : Nat) : Exec W (Point W) :=
  Exec.iterate (step W m g) n ⟨Graph.entry, s⟩

end Destack.Machine
