import Std.Data.TreeMap
import Destack.Error

/-!
# Constant pool

Instructions refer to members and literals by an index into the method's constant pool, whose entries are
already resolved to names and values.
-/

namespace Destack

/-- A field or method by the class that declares it, its name and its descriptor. -/
structure Member where
  owner : String
  name : String
  descriptor : String
deriving DecidableEq, Repr

/-- A member as it is written in listings. -/
def Member.render (m : Member) : String :=
  s!"{m.owner}.{m.name}:{m.descriptor}"

/-- A resolved entry. -/
inductive Constant where
  | className (name : String)
  | field (member : Member)
  | method (member : Member)
  | string (value : String)
  | int (value : Int)
deriving DecidableEq, Repr

/-- Resolved entries by index. -/
structure ConstantPool where
  entries : Std.TreeMap Nat Constant

namespace ConstantPool

def empty : ConstantPool := ⟨∅⟩

/-- Puts an entry in place of any entry with the same index. -/
def insert (pool : ConstantPool) (index : Nat) (entry : Constant) : ConstantPool :=
  ⟨pool.entries.insert index entry⟩

def ofList (entries : List (Nat × Constant)) : ConstantPool :=
  entries.foldl (fun pool (index, entry) => pool.insert index entry) empty

def entry (pool : ConstantPool) (index : Nat) : Except Error Constant :=
  match pool.entries[index]? with
  | some entry => .ok entry
  | none => .error (.missingConstant index)

/-- The field that an index refers to. -/
def field (pool : ConstantPool) (index : Nat) : Except Error Member := do
  match ← pool.entry index with
  | .field member => .ok member
  | _ => .error (.unexpectedConstant index .field)

/-- The method that an index refers to. -/
def method (pool : ConstantPool) (index : Nat) : Except Error Member := do
  match ← pool.entry index with
  | .method member => .ok member
  | _ => .error (.unexpectedConstant index .method)

end ConstantPool

end Destack
