import Destack.CommandLine.Constant
import Destack.Text.ControlSequence

/-!
# Options

The arguments of the command are options, some of which take a value, and at most one path. A value stands after
an equals sign, directly after the letter of a short option, or in the next argument if that does not look like an
option. After `--` every argument is a path.

A value given in the next argument is only looked at when the argument after it turns out to be one the command knows,
or at the end, so an unknown argument is reported before it.
-/

namespace Destack.CommandLine

/-- What to print. -/
inductive Stage where
  | blocks
  | nodes
  | code
deriving DecidableEq, Repr

def Stage.ofName? : String → Option Stage
  | "blocks" => some .blocks
  | "hir" => some .nodes
  | "lir" => some .code
  | _ => none

/-- What the command was asked to do. -/
structure Options where
  /-- Code file; standard input if missing. -/
  path : Option String := none
  /-- Whether the input is hexadecimal text. -/
  hex : Bool := false
  descriptor : String := "()V"
  isStatic : Bool := false
  maxLocals : Nat := 0
  owner : String := "Main"
  name : String := "method"
  labelPrefix : Option String := none
  /-- Pool entries in the order in which they were given. -/
  constants : List (Nat × Constant) := []
  stage : Stage := .code
  /-- Whether to report statistics. -/
  stats : Bool := false
deriving DecidableEq, Repr

/-- The arguments that the command knows. -/
inductive Arg where
  | path | hex | descriptor | static | maxLocals | owner | name | labelPrefix | constant | stage | stats | help
deriving DecidableEq, Repr

namespace Arg

/-- Name after two dashes; a path has none. -/
def long? : Arg → Option String
  | path => none
  | hex => some "hex"
  | descriptor => some "descriptor"
  | static => some "static"
  | maxLocals => some "max-locals"
  | owner => some "owner"
  | name => some "name"
  | labelPrefix => some "label-prefix"
  | constant => some "constant"
  | stage => some "stage"
  | stats => some "stats"
  | help => some "help"

def options : List Arg :=
  [hex, descriptor, static, maxLocals, owner, name, labelPrefix, constant, stage, stats, help]

def ofLong? (text : String) : Option Arg :=
  options.find? (·.long? = some text)

/-- Arguments that have a one-letter form. -/
def ofShort? : Char → Option Arg
  | 'd' => some descriptor
  | 'c' => some constant
  | 's' => some stage
  | 'h' => some help
  | _ => none

/-- Name of the value in messages, for arguments that take one. -/
def valueName? : Arg → Option String
  | path => some "INPUT"
  | descriptor => some "DESCRIPTOR"
  | maxLocals => some "MAX_LOCALS"
  | owner => some "OWNER"
  | name => some "NAME"
  | labelPrefix => some "LABEL_PREFIX"
  | constant => some "CONSTANTS"
  | stage => some "STAGE"
  | hex | static | stats | help => none

def takesValue (a : Arg) : Bool :=
  a.valueName?.isSome

/-- Whether the argument may be given more than once. -/
def isRepeatable : Arg → Bool
  | constant => true
  | _ => false

/-- The argument as it is written in messages. -/
def render (a : Arg) : String :=
  match a.long?, a.valueName? with
  | some long, some value => s!"--{long} <{value}>"
  | some long, none => s!"--{long}"
  | none, some value => s!"[{value}]"
  | none, none => ""

end Arg

/-- Why arguments are refused. -/
inductive UsageError where
  | unexpectedArgument (text : String)
  | unexpectedValue (value : String) (arg : Arg)
  | missingValue (arg : Arg)
  | repeated (arg : Arg)
  | invalidValue (value : String) (arg : Arg) (reason : Option String)
  /-- Not an error: the user asked how to use the command. -/
  | help
deriving DecidableEq, Repr

/-- The text of a refusal. What the user typed is shown in it without control characters. -/
def UsageError.message : UsageError → String
  | unexpectedArgument text => s!"error: unexpected argument '{Text.stripControls text}' found"
  | unexpectedValue value arg =>
    s!"error: unexpected value '{Text.stripControls value}' for '{arg.render}' found; no more were expected"
  | missingValue arg => s!"error: a value is required for '{arg.render}' but none was supplied"
  | repeated arg => s!"error: the argument '{arg.render}' cannot be used multiple times"
  | invalidValue value arg none => s!"error: invalid value '{Text.stripControls value}' for '{arg.render}'"
  | invalidValue value arg (some reason) =>
    s!"error: invalid value '{Text.stripControls value}' for '{arg.render}': {reason}"
  | help => "Lower stack-machine bytecode to register LIR"

/-- Reads the number of local slots: any integer at first, which then has to be in range. -/
def readMaxLocals (value : String) : Except UsageError Nat :=
  let invalid (reason : String) : Except UsageError Nat := .error (.invalidValue value .maxLocals (some reason))
  match Text.readNumeral 10 .signed64 value.toList with
  | .error why => invalid why.message
  | .ok n => if 0 ≤ n ∧ n ≤ 65535 then .ok n.toNat else invalid s!"{n} is not in 0..=65535"

/-- Takes over the value of an argument. -/
def Options.apply (o : Options) (value : String) : Arg → Except UsageError Options
  | .path => if value.isEmpty then .error (.missingValue .path) else .ok { o with path := some value }
  | .descriptor => .ok { o with descriptor := value }
  | .maxLocals => do return { o with maxLocals := ← readMaxLocals value }
  | .owner => .ok { o with owner := value }
  | .name => .ok { o with name := value }
  | .labelPrefix => .ok { o with labelPrefix := some value }
  | .constant =>
    match readConstant value.toList with
    | .ok entry => .ok { o with constants := o.constants ++ [entry] }
    | .error why => .error (.invalidValue value .constant (some why.message))
  | .stage =>
    match Stage.ofName? value with
    | some stage => .ok { o with stage }
    | none => .error (if value.isEmpty then .missingValue .stage else .invalidValue value .stage none)
  | .hex => .ok { o with hex := true }
  | .static => .ok { o with isStatic := true }
  | .stats => .ok { o with stats := true }
  | .help => .error .help

/-- Progress through the arguments. -/
structure Scan where
  options : Options := {}
  /-- Arguments taken over so far. -/
  seen : List Arg := []
  /-- An argument whose value has yet to come or has yet to be looked at. -/
  pending : Option (Arg × Option String) := none
  /-- Whether only paths follow. -/
  pathsOnly : Bool := false

namespace Scan

/-- Takes over an argument with its value, or with none if it takes none. -/
def take (s : Scan) (arg : Arg) (value : Option String) : Except UsageError Scan :=
  if arg.takesValue && value.isNone then .error (.missingValue arg)
  else if s.seen.contains arg && !arg.isRepeatable then .error (.repeated arg)
  else do
    let options ← s.options.apply (value.getD "") arg
    return { s with options, seen := arg :: s.seen }

/-- Takes over the pending argument. -/
def settle (s : Scan) : Except UsageError Scan :=
  match s.pending with
  | none => .ok s
  | some (arg, value) => { s with pending := none }.take arg value

/-- Starts on an argument that the command knows, with the value attached to it. -/
def start (s : Scan) (arg : Arg) (attached : Option String) : Except UsageError Scan := do
  if arg.takesValue then
    let s ← s.settle
    match attached with
    | some value => s.take arg (some value)
    | none => return { s with pending := some (arg, none) }
  else
    match attached with
    | some value => throw (.unexpectedValue value arg)
    | none => (← s.settle).take arg none

/-- An argument that starts with two dashes. -/
def long (s : Scan) (body : List Char) : Except UsageError Scan :=
  let (key, attached) :=
    match splitFirst? '=' body with
    | some (key, value) => (String.ofList key, some (String.ofList value))
    | none => (String.ofList body, none)
  match Arg.ofLong? key with
  | some arg => s.start arg attached
  | none => .error (.unexpectedArgument ("--" ++ key))

/-- An argument that starts with one dash. No short option without a value can be followed by another one, apart
from the request for help, which ends the scan. -/
def short (s : Scan) (letter : Char) (rest : List Char) : Except UsageError Scan :=
  match Arg.ofShort? letter with
  | none => .error (.unexpectedArgument (String.ofList ['-', letter]))
  | some arg =>
    let attached :=
      match rest with
      | [] => none
      | '=' :: value => some (String.ofList value)
      | value => some (String.ofList value)
    s.start arg (if arg.takesValue then attached else none)

/-- Takes an argument as the path, of which there can be one. -/
def path (s : Scan) (text : String) : Except UsageError Scan :=
  if s.seen.contains .path || (s.pending.map (·.1)) == some .path then .error (.unexpectedArgument text)
  else do
    let s ← s.settle
    return { s with pending := some (.path, some text) }

/-- An argument that is no option: the value that is waited for, or the path. -/
def plain (s : Scan) (text : String) : Except UsageError Scan :=
  match s.pending with
  | some (arg, none) =>
    if s.pathsOnly then s.path text else .ok { s with pending := some (arg, some text) }
  | _ => s.path text

/-- Takes the next argument. -/
def next (s : Scan) (text : String) : Except UsageError Scan :=
  if s.pathsOnly then s.plain text
  else
    match text.toList with
    | ['-', '-'] => .ok { s with pathsOnly := true }
    | '-' :: '-' :: body => s.long body
    | '-' :: letter :: rest => s.short letter rest
    | _ => s.plain text

end Scan

/-- Reads the arguments of the command. -/
def Options.ofArgs (args : List String) : Except UsageError Options := do
  let scan ← args.foldlM Scan.next {}
  return (← scan.settle).options

end Destack.CommandLine
