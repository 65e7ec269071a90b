import Lumen.Tree

namespace Lumen

inductive Ty where
  | int | float | string | bool | void
  | object (className : String)
  | null
  | error
deriving DecidableEq

namespace Ty

instance : Inhabited Ty := ⟨error⟩

def ofName : TypeName → Ty
  | .int => int
  | .float => float
  | .string => string
  | .bool => bool
  | .void => void
  | .named name => object name

def text : Ty → String
  | int => "int"
  | float => "float"
  | string => "string"
  | bool => "bool"
  | void => "void"
  | object name => name
  | null => "null"
  | error => "<error>"

def ofText : String → Ty
  | "int" => int
  | "float" => float
  | "string" => string
  | "bool" => bool
  | "void" => void
  | "null" => null
  | "<error>" => error
  | name => object name

def isPrimitive : Ty → Bool
  | int | float | bool => true
  | _ => false

def isNumeric : Ty → Bool
  | int | float => true
  | _ => false

def isError : Ty → Bool
  | error => true
  | _ => false

def isWide : Ty → Bool
  | float => true
  | _ => false

def slotWidth (t : Ty) : Nat :=
  if t.isWide then 2 else 1

def className? : Ty → Option String
  | object name => some name
  | _ => none

def assignable (a b : Ty) : Bool :=
  if a = error ∨ b = error ∨ a = b then true
  else match a, b with
    | null, other | other, null => !other.isPrimitive
    | int, float | float, int => true
    | _, _ => false

theorem assignable_comm (a b : Ty) : assignable a b = assignable b a := by
  cases a <;> cases b <;> simp [assignable, isPrimitive, eq_comm]

end Ty

def BinaryOp.result? (op : BinaryOp) (left right : Ty) : Option Ty :=
  match op.operatorClass with
  | .arithmetic =>
    if left = .string ∨ right = .string then
      if op = .add then some .string else none
    else match left, right with
      | .int, .int => some .int
      | .float, .float | .int, .float | .float, .int => some .float
      | _, _ => none
  | .comparison => if left.assignable right then some .bool else none
  | .logical => if left = .bool ∧ right = .bool then some .bool else none

def UnaryOp.result? (op : UnaryOp) (operand : Ty) : Option Ty :=
  match op with
  | .neg => if operand.isNumeric then some operand else none
  | .not => if operand = .bool then some .bool else none

end Lumen
