import Destack.Error
import Destack.Frame
import Destack.ValueType

/-!
# Descriptors

A field descriptor is the text of one type: a letter for a primitive, `L` and a class name up to a semicolon,
or `[` before another type. A method descriptor is a list of such types in parentheses followed by the type of
the result, which may also be `V`.
-/

namespace Destack

/-- The type of a method's parameters and result. -/
structure MethodType where
  params : List ValueType
  result : ValueType
deriving DecidableEq, Repr

namespace Descriptor

/-- The primitive type that a letter stands for. -/
def primitive? : Char → Option ValueType
  | 'Z' => some .boolean
  | 'B' => some .byte
  | 'C' => some .char
  | 'S' => some .short
  | 'I' => some .int
  | 'J' => some .long
  | 'F' => some .float
  | 'D' => some .double
  | _ => none

/-- What stands after a class name of at least one character and its semicolon. -/
def afterClassName? (cs : List Char) : Option (List Char) :=
  match cs.takeWhile (· ≠ ';'), cs.dropWhile (· ≠ ';') with
  | _ :: _, _ :: rest => some rest
  | _, _ => none

/-- Reads one type from the front of a text. -/
def takeType? : List Char → Option (ValueType × List Char)
  | [] => none
  | c :: cs =>
    if c = '[' then (takeType? cs).map fun (_, rest) => (.reference, rest)
    else if c = 'L' then (afterClassName? cs).map fun rest => (.reference, rest)
    else (primitive? c).map fun ty => (ty, cs)

/-- Reading a type uses up at least one character. -/
theorem length_of_takeType? {cs rest : List Char} {ty : ValueType}
    (h : takeType? cs = some (ty, rest)) : rest.length < cs.length := by
  induction cs generalizing ty rest with
  | nil => simp [takeType?] at h
  | cons c cs ih =>
    simp only [takeType?] at h
    split at h
    · simp only [Option.map_eq_some_iff, Prod.mk.injEq, Prod.exists] at h
      obtain ⟨_, _, hin, _, rfl⟩ := h
      have := ih hin
      simp only [List.length_cons]
      omega
    · split at h
      · simp only [Option.map_eq_some_iff, Prod.mk.injEq] at h
        obtain ⟨_, hin, _, rfl⟩ := h
        have hle := (List.dropWhile_sublist (l := cs) (· ≠ ';')).length_le
        simp only [afterClassName?] at hin
        split at hin
        · next heq =>
          rw [heq] at hle
          simp only [Option.some.injEq] at hin
          subst hin
          simp only [List.length_cons] at hle ⊢
          omega
        · simp at hin
      · simp only [Option.map_eq_some_iff, Prod.mk.injEq] at h
        obtain ⟨_, _, _, rfl⟩ := h
        simp

/-- Reads parameter types up to the closing parenthesis, which it takes as well. -/
def takeParams (cs : List Char) : Except DescriptorFault (List ValueType × List Char) :=
  match cs with
  | [] => .error .missingClose
  | c :: rest =>
    if c = ')' then .ok ([], rest)
    else
      match h : takeType? (c :: rest) with
      | none => .error .badParameter
      | some (ty, after) =>
        have := length_of_takeType? h
        match takeParams after with
        | .error fault => .error fault
        | .ok (tys, last) => .ok (ty :: tys, last)
termination_by cs.length
decreasing_by assumption

/-- Reads a whole text as the type of a result. -/
def result? (cs : List Char) : Option ValueType :=
  if cs = ['V'] then some .void
  else
    match takeType? cs with
    | some (ty, []) => some ty
    | _ => none

/-- Reads a whole text as a field descriptor. -/
def field? (cs : List Char) : Option ValueType :=
  match takeType? cs with
  | some (ty, []) => some ty
  | _ => none

/-- Reads a whole text as a method descriptor. -/
def method (cs : List Char) : Except DescriptorFault MethodType :=
  match cs with
  | '(' :: inner =>
    match takeParams inner with
    | .error fault => .error fault
    | .ok (params, rest) =>
      match result? rest with
      | some result => .ok ⟨params, result⟩
      | none => .error .badReturn
  | _ => .error .missingOpen

end Descriptor

/-- The type that a field descriptor denotes. -/
def ValueType.ofDescriptor (text : String) : Except Error ValueType :=
  match Descriptor.field? text.toList with
  | some ty => .ok ty
  | none => .error (.invalidDescriptor text .badField)

namespace MethodType

/-- The type that a method descriptor denotes. -/
def ofDescriptor (text : String) : Except Error MethodType :=
  match Descriptor.method text.toList with
  | .ok ty => .ok ty
  | .error fault => .error (.invalidDescriptor text fault)

/-- Arguments that a call takes, a receiver not counted. -/
def arity (ty : MethodType) : Nat :=
  ty.params.length

def returnsValue (ty : MethodType) : Bool :=
  ty.result != .void

/-- Local slots that the parameters take, counted in sixteen bits. -/
def paramSlots (ty : MethodType) : Nat :=
  low16 ((ty.params.map (·.slots)).foldr (· + ·) 0)

end MethodType

end Destack
