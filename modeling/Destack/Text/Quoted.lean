import Destack.Text.Unprintable

/-!
# Quoted text

String literals, descriptors and command-line values appear in listings and messages between double
quotes. A quote, a backslash and the usual control characters are written with a backslash, and every
other character that does not show is written by its code point in hexadecimal.
-/

namespace Destack.Text

/-- The characters that stand for one character inside quotes. -/
def escape (c : Char) : List Char :=
  if c = '"' then ['\\', '"']
  else if c = '\\' then ['\\', '\\']
  else if c = '\n' then ['\\', 'n']
  else if c = '\r' then ['\\', 'r']
  else if c = '\t' then ['\\', 't']
  else if c = '\x00' then ['\\', '0']
  else if isUnprintable c then
    ['\\', 'u', '\x7b'] ++ Nat.toDigits 16 c.toNat ++ ['\x7d']
  else [c]

/-- Text between double quotes, with every character made visible. -/
def quoted (s : String) : String :=
  String.ofList ('"' :: s.toList.flatMap escape ++ ['"'])

end Destack.Text
