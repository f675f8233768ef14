import Destack.Register
import Destack.ValueType

/-!
# Calling convention

The first four arguments of a call travel in registers and the others in stack slots of four bytes, counted from
the stack pointer. A result comes back in a register. Callers put an argument where the callee looks for it, at
`Location.ofIndex`. An `Assigner` hands out such locations one after the other and counts the bytes of the stack area
in thirty-two bits; an offset that it hands out is that count read with a sign.
-/

namespace Destack

/-- Where an argument or a result lives. -/
inductive Location where
  | register (r : Register)
  /-- Offset from the stack pointer. -/
  | stack (offset : Int)
deriving DecidableEq, Repr

namespace Location

/-- Bytes of one stack slot. -/
def slotSize : Nat := 4

/-- Location of the argument at a position. -/
def ofIndex (index : Nat) : Location :=
  match Register.arguments[index]? with
  | some r => .register r
  | none => .stack (slotSize * (index - Register.arguments.length) : Nat)

/-- Location of a result; a void one has none. -/
def ofResult? (ty : ValueType) : Option Location :=
  if ty = .void then none else some (.register Register.result)

def register? : Location → Option Register
  | .register r => some r
  | .stack _ => none

def stack? : Location → Option Int
  | .register _ => none
  | .stack offset => some offset

end Location

/-- Progress through the arguments of one call. -/
structure Assigner where
  /-- Argument registers still free. -/
  free : List Register
  /-- Next offset of the outgoing stack area, which is also the bytes of it in use. -/
  stackSize : UInt32
deriving DecidableEq, Repr

namespace Assigner

/-- The state before the first argument of a call. -/
def start : Assigner := ⟨Register.arguments, 0⟩

/-- Hands out the location of the next argument. -/
def assign (a : Assigner) : Location × Assigner :=
  match a.free with
  | r :: free => (.register r, { a with free })
  | [] =>
    (.stack a.stackSize.toInt32.toInt, { a with stackSize := a.stackSize + UInt32.ofNat Location.slotSize })

/-- The state after a number of arguments. -/
def after (count : Nat) : Assigner :=
  ⟨Register.arguments.drop count, UInt32.ofNat (Location.slotSize * (count - Register.arguments.length))⟩

/-- The location of the argument at a position. -/
def nth (index : Nat) : Location :=
  (assign (after index)).1

end Assigner

end Destack
