/-!
# UTF-8

Decoding of bytes to characters. A defect is reported by the position of the first sequence that does not
decode and the number of bytes that were seen to be wrong, or no number if the bytes end too early.
-/

namespace Destack.Text.Utf8

/-- Where and how bytes stop being UTF-8. -/
structure Defect where
  validUpTo : Nat
  length : Option Nat
deriving DecidableEq, Repr

/-- What a lead byte announces: its payload, the number of bytes that follow, and the range of the next one. -/
structure Lead where
  payload : Nat
  follow : Nat
  lo : Nat
  hi : Nat
deriving DecidableEq, Repr

/-- The lead bytes. The range of the second byte keeps out long forms, surrogates and values past the last
code point. -/
def lead? (byte : UInt8) : Option Lead :=
  let b := byte.toNat
  if b < 0x80 then some ⟨b, 0, 0x80, 0xbf⟩
  else if b < 0xc2 then none
  else if b < 0xe0 then some ⟨b % 0x20, 1, 0x80, 0xbf⟩
  else if b < 0xf0 then
    some ⟨b % 0x10, 2, if b = 0xe0 then 0xa0 else 0x80, if b = 0xed then 0x9f else 0xbf⟩
  else if b < 0xf5 then
    some ⟨b % 0x08, 3, if b = 0xf0 then 0x90 else 0x80, if b = 0xf4 then 0x8f else 0xbf⟩
  else none

/-- A sequence of which some bytes are still to come. -/
structure Unfinished where
  start : Nat
  lead : Lead
deriving DecidableEq, Repr

/-- Decodes bytes from a position on. `seen` holds the characters before it, last one first. -/
def decodeFrom (pos : Nat) (unfinished : Option Unfinished) (seen : List Char) :
    List UInt8 → Except Defect (List Char)
  | [] =>
    match unfinished with
    | none => .ok seen.reverse
    | some p => .error ⟨p.start, none⟩
  | byte :: rest =>
    match unfinished with
    | none =>
      match lead? byte with
      | none => .error ⟨pos, some 1⟩
      | some lead =>
        if lead.follow = 0 then decodeFrom (pos + 1) none (Char.ofNat lead.payload :: seen) rest
        else decodeFrom (pos + 1) (some ⟨pos, lead⟩) seen rest
    | some p =>
      if p.lead.lo ≤ byte.toNat ∧ byte.toNat ≤ p.lead.hi then
        let payload := p.lead.payload * 64 + byte.toNat % 64
        if p.lead.follow = 1 then decodeFrom (pos + 1) none (Char.ofNat payload :: seen) rest
        else decodeFrom (pos + 1) (some ⟨p.start, ⟨payload, p.lead.follow - 1, 0x80, 0xbf⟩⟩) seen rest
      else .error ⟨p.start, some (pos - p.start)⟩

/-- The characters that bytes encode. -/
def decode (bytes : List UInt8) : Except Defect (List Char) :=
  decodeFrom 0 none [] bytes

end Destack.Text.Utf8
