import Lumen.Double.Writing
import Lumen.Text.Quoted
import Lumen.Ty

namespace Lumen.Code

inductive Opcode where
  | push | pop | dup
  | add | sub | mul | div | mod | pow | neg
  | eq | ne | lt | le | gt | ge
  | not | and | or
  | label | jump | jumpIfFalse | call | ret
  | getField | putField | create | construct
  | load | store
deriving DecidableEq

namespace Opcode

def all : List Opcode := [
  push, pop, dup, add, sub, mul, div, mod, pow, neg, eq, ne, lt, le, gt, ge, not, and, or, label,
  jump, jumpIfFalse, call, ret, getField, putField, create, construct, load, store
]

def mnemonic : Opcode → String
  | push => "PUSH" | pop => "POP" | dup => "DUP"
  | add => "ADD" | sub => "SUB" | mul => "MUL" | div => "DIV" | mod => "MOD" | pow => "POW"
  | neg => "NEG"
  | eq => "EQ" | ne => "NE" | lt => "LT" | le => "LE" | gt => "GT" | ge => "GE"
  | not => "NOT" | and => "AND" | or => "OR"
  | label => "LABEL" | jump => "JUMP" | jumpIfFalse => "JUMP_IF_FALSE" | call => "CALL"
  | ret => "RETURN"
  | getField => "GETFIELD" | putField => "PUTFIELD" | create => "NEW"
  | construct => "INVOKE_CONSTRUCTOR"
  | load => "LOAD" | store => "STORE"

def title : Opcode → String
  | push => "Push" | pop => "Pop" | dup => "Dup"
  | add => "Add" | sub => "Sub" | mul => "Mul" | div => "Div" | mod => "Mod" | pow => "Pow"
  | neg => "Neg"
  | eq => "Eq" | ne => "Ne" | lt => "Lt" | le => "Le" | gt => "Gt" | ge => "Ge"
  | not => "Not" | and => "And" | or => "Or"
  | label => "Label" | jump => "Jump" | jumpIfFalse => "JumpIfFalse" | call => "Call"
  | ret => "Return"
  | getField => "GetField" | putField => "PutField" | create => "New"
  | construct => "InvokeConstructor"
  | load => "Load" | store => "Store"

def ofBinary : BinaryOp → Opcode
  | .add => add | .sub => sub | .mul => mul | .div => div | .mod => mod | .pow => pow
  | .eq => eq | .ne => ne | .lt => lt | .le => le | .gt => gt | .ge => ge
  | .and => and | .or => or

def ofUnary : UnaryOp → Opcode
  | .neg => neg
  | .not => not

end Opcode

inductive Operand where
  | literal (value : Literal)
  | symbol (name : String)
  | label (id : Nat)
  -- `count` is the number of values that the call takes, with the receiver.
  | call (target : String) (count : Nat)
deriving DecidableEq

def literalText : Literal → String
  | .int n => toString n
  | .float x => x.write .listing
  | .string s => Text.quoted s
  | .bool b => if b then "true" else "false"
  | .null => "null"

def Operand.text : Operand → String
  | literal value => literalText value
  | symbol name => name
  | label id => "L" ++ toString id
  | call target count => target ++ "/" ++ toString count

structure Instruction where
  opcode  : Opcode
  operand : Option Operand
  type    : Ty
  loc     : Location
  -- The slot of a local variable that is read or written.
  slot    : Option Nat
deriving DecidableEq

namespace Instruction

def count (i : Instruction) : Nat :=
  match i.operand with
  | some (.call _ count) => count
  | _ => 0

def produces (i : Instruction) : Nat :=
  if i.type = .void then 0 else 1

def pops (i : Instruction) : Nat :=
  match i.opcode with
  | .push | .load | .create | .label | .jump => 0
  | .pop | .store | .jumpIfFalse | .dup | .neg | .not | .getField => 1
  | .add | .sub | .mul | .div | .mod | .pow | .eq | .ne | .lt | .le | .gt | .ge | .and | .or
  | .putField => 2
  | .ret => i.produces
  | .call | .construct => i.count

def pushes (i : Instruction) : Nat :=
  match i.opcode with
  | .push | .load | .create | .neg | .not | .getField => 1
  | .add | .sub | .mul | .div | .mod | .pow | .eq | .ne | .lt | .le | .gt | .ge | .and | .or => 1
  | .dup => 2
  | .pop | .store | .jumpIfFalse | .putField | .label | .jump | .ret | .construct => 0
  | .call => i.produces

def text (i : Instruction) : String :=
  let slot := match i.slot with
    | some slot => " @" ++ toString slot
    | none => ""
  let type := if i.type = .void then "" else " : " ++ i.type.text
  match i.opcode, i.operand with
  | .label, some operand => operand.text ++ ":"
  | opcode, some operand => "    " ++ opcode.mnemonic ++ " " ++ operand.text ++ slot ++ type
  | opcode, none => "    " ++ opcode.mnemonic ++ slot ++ type

def plain (opcode : Opcode) (type : Ty) (loc : Location) : Instruction :=
  ⟨opcode, none, type, loc, none⟩

def withOperand (opcode : Opcode) (operand : Operand) (type : Ty) (loc : Location) :
    Instruction :=
  ⟨opcode, some operand, type, loc, none⟩

def access (opcode : Opcode) (name : String) (type : Ty) (slot : Option Nat) (loc : Location) :
    Instruction :=
  ⟨opcode, some (.symbol name), type, loc, slot⟩

def place (label : Nat) (loc : Location) : Instruction :=
  withOperand .label (.label label) .void loc

def jump (opcode : Opcode) (label : Nat) (loc : Location) : Instruction :=
  withOperand opcode (.label label) .void loc

end Instruction
end Lumen.Code
