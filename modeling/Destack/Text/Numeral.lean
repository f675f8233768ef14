/-!
# Reading bounded integers

A numeral is an optional sign and one or more digits of a radix. The digits are taken from the left, and
reading stops at the first one that is no digit or that takes the value out of the allowed range. White space may stand
around a number and between the digits of a hexadecimal text.
-/

namespace Destack.Text

/-! ## White space -/

/-- Ranges of code points with the `White_Space` property, both ends included and in ascending order. -/
def blankRanges : List (Nat × Nat) := [
  (0x9, 0xd), (0x20, 0x20), (0x85, 0x85), (0xa0, 0xa0), (0x1680, 0x1680), (0x2000, 0x200a),
  (0x2028, 0x2029), (0x202f, 0x202f), (0x205f, 0x205f), (0x3000, 0x3000)]

/-- Whether a character is white space. -/
def isBlank (c : Char) : Bool :=
  blankRanges.any fun (lo, hi) => lo ≤ c.toNat && c.toNat ≤ hi

/-- A text without the white space at its two ends. -/
def trimBlanks (cs : List Char) : List Char :=
  ((cs.dropWhile isBlank).reverse.dropWhile isBlank).reverse

/-! ## Digits -/

/-- Why a text is not a numeral of the wanted range. -/
inductive NumeralError where
  | empty
  | invalidDigit
  | tooLarge
  | tooSmall
deriving DecidableEq, Repr

def NumeralError.message : NumeralError → String
  | .empty => "cannot parse integer from empty string"
  | .invalidDigit => "invalid digit found in string"
  | .tooLarge => "number too large to fit in target type"
  | .tooSmall => "number too small to fit in target type"

/-- The value of a digit: `0`–`9`, then letters of either case. -/
def digit? (radix : Nat) (c : Char) : Option Nat :=
  let value :=
    if '0' ≤ c ∧ c ≤ '9' then some (c.toNat - '0'.toNat)
    else if 'a' ≤ c ∧ c ≤ 'z' then some (c.toNat - 'a'.toNat + 10)
    else if 'A' ≤ c ∧ c ≤ 'Z' then some (c.toNat - 'A'.toNat + 10)
    else none
  value.filter (· < radix)

/-- Range of integers a numeral may denote. A minus sign is read only if the range has negative members. -/
structure IntRange where
  lo : Int
  hi : Int
deriving DecidableEq, Repr

namespace IntRange

def unsigned8 : IntRange := ⟨0, 255⟩
def unsigned16 : IntRange := ⟨0, 65535⟩
def signed32 : IntRange := ⟨-2147483648, 2147483647⟩
def signed64 : IntRange := ⟨-9223372036854775808, 9223372036854775807⟩

end IntRange

/-- Extends a value by digits counted upward. -/
def readUp (radix : Nat) (range : IntRange) : Int → List Char → Except NumeralError Int
  | value, [] => .ok value
  | value, c :: cs =>
    match digit? radix c with
    | none => .error .invalidDigit
    | some d =>
      let next := value * radix + d
      if next ≤ range.hi then readUp radix range next cs else .error .tooLarge

/-- Extends a value by digits counted downward, as after a minus sign. -/
def readDown (radix : Nat) (range : IntRange) : Int → List Char → Except NumeralError Int
  | value, [] => .ok value
  | value, c :: cs =>
    match digit? radix c with
    | none => .error .invalidDigit
    | some d =>
      let next := value * radix - d
      if range.lo ≤ next then readDown radix range next cs else .error .tooSmall

/-- Reads a whole text as a numeral. A sign on its own is an invalid digit. -/
def readNumeral (radix : Nat) (range : IntRange) : List Char → Except NumeralError Int
  | [] => .error .empty
  | ['+'] => .error .invalidDigit
  | ['-'] => .error .invalidDigit
  | '+' :: cs => readUp radix range 0 cs
  | '-' :: cs => if range.lo < 0 then readDown radix range 0 cs else .error .invalidDigit
  | cs => readUp radix range 0 cs

end Destack.Text
