/-!
# Registers

Physical and virtual registers share one numbering: the machine's sixteen registers come first, and every later
number is a virtual register.
-/

namespace Destack

structure Register where
  id : Nat
deriving DecidableEq, Repr

namespace Register

/-- Number of physical registers. -/
def physicalCount : Nat := 16

def isPhysical (r : Register) : Bool :=
  r.id < physicalCount

def isVirtual (r : Register) : Bool :=
  !r.isPhysical

/-- The virtual register with a number, counted from zero. -/
def virtual (n : Nat) : Register :=
  ⟨physicalCount + n⟩

/-- Registers of the first call arguments, in order. -/
def arguments : List Register := [⟨0⟩, ⟨1⟩, ⟨2⟩, ⟨3⟩]

/-- Register of a call's result. -/
def result : Register := ⟨0⟩

def stackPointer : Register := ⟨13⟩

def link : Register := ⟨14⟩

def programCounter : Register := ⟨15⟩

def isArgument (r : Register) : Bool :=
  arguments.contains r

def names : List String :=
  ["r0", "r1", "r2", "r3", "r4", "r5", "r6", "r7", "r8", "r9", "r10", "r11", "r12", "sp", "lr", "pc"]

/-- Assembly name; virtual registers have none. -/
def name (r : Register) : String :=
  names[r.id]?.getD "?"

/-- A register as it is written in listings. -/
def render (r : Register) : String :=
  if r.isPhysical then r.name else s!"v{r.id}"

end Register

end Destack
