/-!
# Control sequences

Text that a user typed is shown in a message without what would steer a terminal: control characters other than white
space, and escape sequences. A sequence starts with the escape character, and the character after it says where the
sequence ends.
-/

namespace Destack.Text

/-- How far the reading of an escape sequence has got. -/
inductive SequenceState where
  /-- Outside of a sequence. -/
  | ground
  /-- After the escape character. -/
  | escape
  /-- After intermediate characters of a short sequence, which the next other character ends. -/
  | intermediate
  /-- In a control sequence, which a character from `@` to `~` ends. -/
  | control
  /-- At the start of a device control string. -/
  | deviceStart
  /-- In the parameters of a device control string. -/
  | deviceParameters
  /-- After intermediate characters of a device control string. -/
  | deviceIntermediate
  /-- In the data of a string, which a string terminator ends. -/
  | string
  /-- In an operating system command, which a bell ends. -/
  | command
deriving DecidableEq, Repr

/-- Control characters that stay in a shown text: tab, line feed, form feed and carriage return. -/
def isLayout (c : Char) : Bool :=
  c = '\t' || c = '\n' || c = '\x0c' || c = '\r'

/-- Whether a character outside of sequences is shown. -/
def isShown (c : Char) : Bool :=
  (0x20 ≤ c.toNat && c.toNat ≠ 0x7f) || isLayout c

/-- Whether the encoding of a character holds the byte that terminates strings. -/
def terminatesString (c : Char) : Bool :=
  (String.utf8EncodeChar c).contains 0x9c

namespace SequenceState

/-- Whether layout characters are obeyed at once, in the middle of the sequence. -/
def obeysLayout : SequenceState → Bool
  | escape | intermediate | control => true
  | ground | deviceStart | deviceParameters | deviceIntermediate | string | command => false

/-- What a character other than a cancel or an escape does to a sequence. -/
def advance (s : SequenceState) (c : Char) : SequenceState :=
  match s with
  | ground => ground
  | escape =>
    if c = '[' then control
    else if c = ']' then command
    else if c = 'P' then deviceStart
    else if c = 'X' || c = '^' || c = '_' then string
    else if '0' ≤ c && c ≤ '~' then ground
    else if ' ' ≤ c && c ≤ '/' then intermediate
    else escape
  | intermediate => if '0' ≤ c && c ≤ '~' then ground else intermediate
  | control => if '@' ≤ c && c ≤ '~' then ground else control
  | deviceStart =>
    if '@' ≤ c && c ≤ '~' then string
    else if '0' ≤ c && c ≤ '?' then deviceParameters
    else if ' ' ≤ c && c ≤ '/' then deviceIntermediate
    else deviceStart
  | deviceParameters =>
    if '<' ≤ c && c ≤ '~' then string
    else if ' ' ≤ c && c ≤ '/' then deviceIntermediate
    else deviceParameters
  | deviceIntermediate => if '0' ≤ c && c ≤ '~' then string else deviceIntermediate
  | string => if terminatesString c then ground else string
  | command => if c = '\x07' then ground else command

/-- The state after a character. An escape starts a new sequence wherever it stands, and a cancel or a substitute
character ends any. -/
def next (s : SequenceState) (c : Char) : SequenceState :=
  if c = '\x1b' then escape
  else if c = '\x18' || c = '\x1a' then ground
  else s.advance c

end SequenceState

/-- What is shown of a text that starts in a state. A layout character in the middle of a sequence is shown, and
so is what follows it, until the next control character takes the sequence up again (`showing`). A character outside
of ASCII shown that way ends the sequence. -/
def shownFrom (s : SequenceState) (showing : Bool) : List Char → List Char
  | [] => []
  | c :: cs =>
    if (showing || s = .ground) && isShown c then
      c :: shownFrom (if c.toNat < 0x80 then s else .ground) showing cs
    else if s.obeysLayout && isLayout c then c :: shownFrom s true cs
    else shownFrom (s.next c) false cs

/-- A text without control characters and escape sequences. -/
def stripControls (text : String) : String :=
  String.ofList (shownFrom .ground false text.toList)

end Destack.Text
