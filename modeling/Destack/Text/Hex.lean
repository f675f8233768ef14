import Destack.Text.Numeral
import Destack.Text.Quoted

/-!
# Bytes as hexadecimal text

Writing gives each byte two lower-case digits. Reading drops all white space and takes the rest two
characters at a time, each pair being a numeral of radix sixteen.
-/

namespace Destack.Text.Hex

/-- The digit of a value below sixteen. -/
def digit (n : Nat) : Char :=
  Nat.digitChar n

/-- A byte as two digits. -/
def ofByte (b : UInt8) : String :=
  String.ofList [digit (b.toNat / 16), digit (b.toNat % 16)]

/-- Bytes as an unbroken run of digits. -/
def ofBytes (bytes : List UInt8) : String :=
  String.join (bytes.map ofByte)

inductive ReadError where
  | oddDigits
  | badByte (pair : String) (why : NumeralError)
deriving DecidableEq, Repr

def ReadError.message : ReadError → String
  | .oddDigits => "odd number of hex digits"
  | .badByte pair why => "bad hex byte " ++ quoted pair ++ ": " ++ why.message

/-- Reads characters in pairs. -/
def readPairs : List Char → Except ReadError (List UInt8)
  | [] => .ok []
  | [_] => .error .oddDigits
  | a :: b :: cs =>
    match readNumeral 16 .unsigned8 [a, b] with
    | .error why => .error (.badByte (String.ofList [a, b]) why)
    | .ok value => (UInt8.ofNat value.toNat :: ·) <$> readPairs cs

/-- Reads bytes from a text, whatever white space it holds. An odd count is reported before any bad pair. -/
def read (text : List Char) : Except ReadError (List UInt8) :=
  let digits := text.filter (!isBlank ·)
  if digits.length % 2 = 0 then readPairs digits else .error .oddDigits

end Destack.Text.Hex
