/-!
# Value types

The type tags carried by parameters, fields, results and values. Arrays and class instances are all
references.
-/

namespace Destack

inductive ValueType where
  | void | boolean | byte | char | short | int | long | float | double | reference
deriving DecidableEq, Repr

namespace ValueType

def all : List ValueType :=
  [void, boolean, byte, char, short, int, long, float, double, reference]

/-- One-letter name. -/
def letter : ValueType → String
  | void => "V"
  | boolean => "Z"
  | byte => "B"
  | char => "C"
  | short => "S"
  | int => "I"
  | long => "J"
  | float => "F"
  | double => "D"
  | reference => "L"

/-- Readable name. -/
def name : ValueType → String
  | void => "void"
  | boolean => "boolean"
  | byte => "byte"
  | char => "char"
  | short => "short"
  | int => "int"
  | long => "long"
  | float => "float"
  | double => "double"
  | reference => "reference"

def ofName? (name : String) : Option ValueType :=
  all.find? (·.name = name)

/-- Local slots that a value of this type takes. -/
def slots : ValueType → Nat
  | void => 0
  | long | double => 2
  | _ => 1

/-- Type of such a value on the operand stack, where the small integer types are ints. -/
def onStack : ValueType → ValueType
  | boolean | byte | char | short => int
  | ty => ty

end ValueType

end Destack
