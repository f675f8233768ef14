import Destack.CommandLine.Options
import Destack.Listing
import Destack.Text.Utf8

/-!
# Running the command

The command reads one method, compiles it and prints one of its listings. This module says what is printed and with
which status the command ends, given the bytes that it read.
-/

namespace Destack.CommandLine

/-- What the command prints and how it ends. -/
structure Outcome where
  status : Nat
  stdout : String
  stderr : String
deriving DecidableEq, Repr

namespace Outcome

/-- The end of a command that could not do its work. -/
def failure (text : String) : Outcome :=
  ⟨1, "", s!"Error: {text}\n"⟩

/-- The end of a command whose arguments are refused. -/
def usage : UsageError → Outcome
  | .help => ⟨0, UsageError.help.message ++ "\n", ""⟩
  | e => ⟨2, "", e.message ++ "\n"⟩

/-- The end of a command whose code file is not there. -/
def missingFile : Outcome :=
  failure "Os \x7b code: 2, kind: NotFound, message: \"No such file or directory\" \x7d"

/-- The end of a command whose hexadecimal text is not UTF-8. -/
def invalidText (bytes : List UInt8) (defect : Text.Utf8.Defect) : Outcome :=
  let list := ", ".intercalate (bytes.map fun b => toString b.toNat)
  let length := match defect.length with
    | some n => s!"Some({n})"
    | none => "None"
  failure <| s!"FromUtf8Error \x7b bytes: [{list}], " ++
    s!"error: Utf8Error \x7b valid_up_to: {defect.validUpTo}, error_len: {length} \x7d \x7d"

end Outcome

namespace Options

/-- The code in the bytes that were read. -/
def code (o : Options) (bytes : List UInt8) : Except Outcome (List UInt8) :=
  if o.hex then
    match Text.Utf8.decode bytes with
    | .error defect => .error (.invalidText bytes defect)
    | .ok text =>
      match Text.Hex.read text with
      | .ok code => .ok code
      | .error e => .error (.failure (Text.quoted e.message))
  else .ok bytes

/-- The listing that was asked for. -/
def listing (o : Options) (c : Compiled) : String :=
  match o.stage with
  | .blocks => c.blockListing
  | .nodes => c.nodeListing
  | .code => c.codeListing

/-- Compiles the code that was read and prints the listing. -/
def run (o : Options) (bytes : List UInt8) : Outcome :=
  match o.code bytes with
  | .error outcome => outcome
  | .ok code =>
    let method : Method := {
      owner := o.owner, name := o.name, descriptor := o.descriptor
      isStatic := o.isStatic, maxLocals := o.maxLocals, code }
    let labelPrefix := o.labelPrefix.getD method.labelPrefix
    match compile OperandTable.standard (ConstantPool.ofList o.constants) method labelPrefix {} with
    | .error e _ => .failure e.message
    | .ok compiled stats =>
      ⟨0, o.listing compiled, if o.stats then stats.report ++ "\n" else ""⟩

end Options

end Destack.CommandLine
