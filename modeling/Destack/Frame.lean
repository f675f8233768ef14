/-!
# Frames

The frame of a method holds its local variables and its operand stack. While a method is translated the frame
holds, for every slot, the number of the node that defines the value there.
-/

namespace Destack

abbrev BlockId := Nat
abbrev NodeId := Nat
abbrev InstrId := Nat

/-- What is kept of a number in sixteen bits, as those of slots and parameters are. -/
def low16 (n : Nat) : Nat :=
  n % 65536

/-- A place in a frame. Stack slots are counted from the bottom. -/
inductive Slot where
  | localVar (index : Nat)
  | operand (depth : Nat)
deriving DecidableEq, Repr

/-- A slot as it is written in listings. -/
def Slot.render : Slot → String
  | .localVar index => s!"local {index}"
  | .operand depth => s!"stack {depth}"

/-- Local slots and operand stack; the stack has its top first. -/
structure Frame where
  locals : Array NodeId
  stack : List NodeId
deriving DecidableEq, Repr

namespace Frame

def empty : Frame := ⟨#[], []⟩

/-- Number of values on the operand stack. -/
def depth (f : Frame) : Nat :=
  f.stack.length

/-- The value in a slot, if the frame has it. -/
def slot? (f : Frame) : Slot → Option NodeId
  | .localVar index => f.locals[index]?
  | .operand depth => f.stack.reverse[depth]?

end Frame

end Destack
