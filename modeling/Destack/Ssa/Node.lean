import Destack.ConstantPool
import Destack.Frame
import Destack.Opcode
import Destack.Text.Quoted
import Destack.ValueType

/-!
# Nodes

A node is one value or effect of a method. Its operands name the nodes that define them, so nothing refers to the
operand stack any more. A merge stands for a frame slot at the start of a block that several blocks lead to and has
one argument for each of them, in the order of the block's predecessors.
-/

namespace Destack.Ssa

inductive Op where
  /-- Formal parameter; the receiver of an instance method has index zero. -/
  | param (index : Nat)
  /-- Content of a local slot that nothing was stored in. -/
  | undefined (slot : Nat)
  | intConst (value : Int)
  | nullConst
  | stringConst (value : String)
  /-- Arithmetic, with the opcode of the instruction it comes from. -/
  | arith (op : ArithOp) (opcode : Opcode) (lhs rhs : NodeId)
  | negate (value : NodeId)
  | getStatic (field : Member)
  | putStatic (field : Member) (value : NodeId)
  | call (kind : CallKind) (method : Member) (args : List NodeId)
  /-- Load from the sum of two computed values. -/
  | arrayLoad (base offset : NodeId)
  | arrayStore (base offset value : NodeId)
  | branch (condition : Condition) (lhs rhs : NodeId) (taken fallthrough : BlockId)
  | goto (target : BlockId)
  | switch (value : NodeId) (default : BlockId) (cases : List (Int × BlockId))
  | ret (value : Option NodeId)
  | raise (value : NodeId)
  | merge (slot : Slot) (args : List NodeId)
deriving DecidableEq, Repr

namespace Op

/-- Name of the kind of node, as it is counted. -/
def kind : Op → String
  | param .. => "param"
  | undefined .. => "undefined"
  | intConst .. => "const"
  | nullConst => "null"
  | stringConst .. => "string"
  | arith .. => "arith"
  | negate .. => "neg"
  | getStatic .. => "getstatic"
  | putStatic .. => "putstatic"
  | call .. => "invoke"
  | arrayLoad .. => "aload"
  | arrayStore .. => "astore"
  | branch .. => "if"
  | goto .. => "goto"
  | switch .. => "switch"
  | ret .. => "return"
  | raise .. => "throw"
  | merge .. => "phi"

def isMerge : Op → Bool
  | merge .. => true
  | _ => false

/-- Slot and arguments of a merge. -/
def merge? : Op → Option (Slot × List NodeId)
  | merge slot args => some (slot, args)
  | _ => none

def isUndefined : Op → Bool
  | undefined .. => true
  | _ => false

/-- Whether the node ends its block. -/
def isControl : Op → Bool
  | branch .. | goto .. | switch .. | ret .. | raise .. => true
  | _ => false

/-- Operands in the order of evaluation; the arguments of a merge are among them. -/
def operands : Op → List NodeId
  | param .. | undefined .. | intConst .. | nullConst | stringConst .. | getStatic .. | goto .. => []
  | arith _ _ lhs rhs | branch _ lhs rhs _ _ => [lhs, rhs]
  | negate value | putStatic _ value | switch value _ _ | raise value => [value]
  | call _ _ args | merge _ args => args
  | arrayLoad base offset => [base, offset]
  | arrayStore base offset value => [base, offset, value]
  | ret value => value.toList

/-- Blocks that a control node may continue at. -/
def targets : Op → List BlockId
  | branch _ _ _ taken fallthrough => [taken, fallthrough]
  | goto target => [target]
  | switch _ default cases => default :: cases.map (·.2)
  | _ => []

/-- Opcode recorded with an arithmetic node. -/
def opcode? : Op → Option Opcode
  | arith _ opcode _ _ => some opcode
  | _ => none

end Op

structure Node where
  /-- Block that the node was emitted into. -/
  block : BlockId
  /-- Type of the value; void for effects and control. -/
  type : ValueType
  op : Op
deriving DecidableEq, Repr

namespace Node

/-- Whether the node has a value; placeholders and merges always do. -/
def hasValue (n : Node) : Bool :=
  n.op.isUndefined || n.op.isMerge || n.type != .void

/-- Node numbers as they are written in a list. -/
def renderIds (ids : List NodeId) : String :=
  ", ".intercalate (ids.map fun id => s!"h{id}")

/-- The operation of a node whose type has a one-letter name. -/
def renderOp (tag : String) : Op → String
  | .param index => s!"param.{tag} {index}"
  | .undefined slot => s!"undefined local {slot}"
  | .intConst value => s!"const.I {value}"
  | .nullConst => "const.L null"
  | .stringConst value => s!"const.L {Text.quoted value}"
  | .arith op _ lhs rhs => s!"{op.mnemonic}.{tag} h{lhs}, h{rhs}"
  | .negate value => s!"neg.{tag} h{value}"
  | .getStatic field => s!"getstatic.{tag} {field.render}"
  | .putStatic field value => s!"putstatic {field.render} h{value}"
  | .call .static method args => s!"invokestatic {method.render}({renderIds args})"
  | .call .special method args => s!"invokespecial {method.render}({renderIds args})"
  | .arrayLoad base offset => s!"load.{tag} [h{base} + h{offset}]"
  | .arrayStore base offset value => s!"store [h{base} + h{offset}], h{value}"
  | .branch condition lhs rhs taken fallthrough =>
    s!"if_{condition.mnemonic} h{lhs}, h{rhs} -> B{taken} else B{fallthrough}"
  | .goto target => s!"goto B{target}"
  | .switch value default cases =>
    s!"switch h{value} default B{default}" ++
      String.join (cases.map fun (key, target) => s!", {key} => B{target}")
  | .ret (some value) => s!"return h{value}"
  | .ret none => "return"
  | .raise value => s!"throw h{value}"
  | .merge slot args => s!"phi.{tag} [{renderIds args}] ({slot.render})"

/-- A node under its number as it is written in listings. -/
def render (id : NodeId) (n : Node) : String :=
  s!"h{id}" ++ (if n.hasValue then " = " else ": ") ++ renderOp n.type.letter n.op

end Node

end Destack.Ssa
