import Destack.ConstantPool
import Destack.Text.Numeral
import Destack.Text.Quoted

/-!
# Constants on the command line

A pool entry is given as `INDEX=KIND:VALUE`. The value of a member is `OWNER.NAME:DESC`, where the descriptor starts
after the first colon and the name after the last point before it.
-/

namespace Destack.CommandLine

/-- Why a text is not a pool entry. -/
inductive ConstantError where
  | noIndex
  | badIndex (text : String) (why : Text.NumeralError)
  | noKind
  | unknownKind (kind : String)
  | badInt (text : String) (why : Text.NumeralError)
  | noDescriptor
  | noMember
deriving DecidableEq, Repr

def ConstantError.message : ConstantError → String
  | noIndex => "expected INDEX=KIND:VALUE"
  | badIndex text why => s!"bad index {Text.quoted text}: {why.message}"
  | noKind => "expected KIND:VALUE"
  | unknownKind kind => s!"unknown constant kind {Text.quoted kind}"
  | badInt text why => s!"bad int {Text.quoted text}: {why.message}"
  | noDescriptor => "expected OWNER.NAME:DESC"
  | noMember => "expected OWNER.NAME"

/-- The parts of a text before and after the first occurrence of a character. -/
def splitFirst? (c : Char) (cs : List Char) : Option (List Char × List Char) :=
  match cs.dropWhile (· ≠ c) with
  | _ :: back => some (cs.takeWhile (· ≠ c), back)
  | [] => none

/-- The parts of a text before and after the last occurrence of a character. -/
def splitLast? (c : Char) (cs : List Char) : Option (List Char × List Char) :=
  (splitFirst? c cs.reverse).map fun (back, front) => (front.reverse, back.reverse)

/-- Reads `OWNER.NAME:DESC`. -/
def readMember (cs : List Char) : Except ConstantError Member :=
  match splitFirst? ':' cs with
  | none => .error .noDescriptor
  | some (path, descriptor) =>
    match splitLast? '.' path with
    | none => .error .noMember
    | some (owner, name) => .ok ⟨String.ofList owner, String.ofList name, String.ofList descriptor⟩

/-- Reads the value of an entry of a kind. -/
def readValue (kind : String) (cs : List Char) : Except ConstantError Constant :=
  match kind with
  | "int" =>
    match Text.readNumeral 10 .signed32 cs with
    | .ok value => .ok (.int value)
    | .error why => .error (.badInt (String.ofList cs) why)
  | "string" => .ok (.string (String.ofList cs))
  | "class" => .ok (.className (String.ofList cs))
  | "field" => .field <$> readMember cs
  | "method" => .method <$> readMember cs
  | other => .error (.unknownKind other)

/-- Reads `INDEX=KIND:VALUE`. White space around the index is ignored. -/
def readConstant (cs : List Char) : Except ConstantError (Nat × Constant) :=
  match splitFirst? '=' cs with
  | none => .error .noIndex
  | some (index, entry) =>
    match Text.readNumeral 10 .unsigned16 (Text.trimBlanks index) with
    | .error why => .error (.badIndex (String.ofList index) why)
    | .ok n =>
      match splitFirst? ':' entry with
      | none => .error .noKind
      | some (kind, value) => (n.toNat, ·) <$> readValue (String.ofList kind) value

end Destack.CommandLine
