import Lumen.Code.Instruction
import Lumen.Code.Slots

namespace Lumen.Code

inductive Routine.Kind where
  | toplevel | function | method | constructor
deriving DecidableEq

def Routine.Kind.text : Routine.Kind → String
  | toplevel => "toplevel"
  | function => "function"
  | method => "method"
  | constructor => "constructor"

structure Underflow where
  routine : String
  index   : Nat
  opcode  : Opcode
deriving DecidableEq

def Underflow.message (u : Underflow) : String :=
  "operand stack underflow at instruction " ++ toString u.index ++ " (" ++ u.opcode.title ++
    ") in '" ++ u.routine ++ "'"

-- How deep the stack gets, from a depth on, when the code is read in order; otherwise the first
-- instruction for which there are too few values.
def stackDepth (depth deepest index : Nat) : List Instruction → Except (Nat × Opcode) Nat
  | [] => .ok deepest
  | i :: rest =>
    if depth < i.pops then .error (index, i.opcode)
    else
      let depth := depth - i.pops + i.pushes
      stackDepth depth (max deepest depth) (index + 1) rest

structure Routine where
  name       : String
  kind       : Routine.Kind
  isInstance : Bool
  code       : List Instruction
  locals     : List Local
  maxStack   : Nat

namespace Routine

def measure (name : String) (code : List Instruction) : Except Underflow Nat :=
  match stackDepth 0 0 0 code with
  | .ok depth => .ok depth
  | .error (index, opcode) => .error ⟨name, index, opcode⟩

-- The depth of the stack is left at zero if the check fails.
def ofCode (name : String) (kind : Kind) (isInstance : Bool) (code : List Instruction)
    (locals : List Local) : Routine where
  name := name
  kind := kind
  isInstance := isInstance
  code := code
  locals := locals
  maxStack := match measure name code with
    | .ok depth => depth
    | .error _ => 0

def stack (r : Routine) : Except Underflow Nat :=
  measure r.name r.code

def slotOf? (r : Routine) (name : String) : Option Nat :=
  (r.locals.find? (·.name = name)).map (·.slot)

def text (r : Routine) : String :=
  let head := r.kind.text ++ " " ++ r.name ++ (if r.isInstance then " [instance]" else "") ++
    " (max stack " ++ toString r.maxStack ++ ")\n"
  let row (l : Local) :=
    "  local @" ++ toString l.slot ++ " " ++ l.name ++ ": " ++ l.type.text ++ "\n"
  head ++ String.join (r.locals.map row) ++ String.join (r.code.map fun i => i.text ++ "\n")

end Routine

def listing (routines : List Routine) : String :=
  "\n".intercalate (routines.map Routine.text)

end Lumen.Code
