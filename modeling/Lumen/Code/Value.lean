import Lumen.Checked
import Lumen.Code.Routine

namespace Lumen.Code

structure Site where
  program   : Checked
  kind      : Routine.Kind
  className : Option String
  returns   : Ty

inductive Storage where
  | slot (slot : Nat)
  -- A field of the class around, reached through the receiver.
  | field (className : String)
  | global
deriving DecidableEq

namespace Site

def symbols (site : Site) : SymbolTable :=
  site.program.symbols

def memberHere? (site : Site) (name : String) : Option Symbol :=
  site.className.bind (site.symbols.member? · name)

-- Local variables come first, then fields of the class around.
def storage (site : Site) (slots : Slots) (name : String) : Storage :=
  match slots.find? name with
  | some slot => .slot slot
  | none =>
    match site.className with
    | some className =>
      if (site.memberHere? name).any (·.kind = .field) then .field className else .global
    | none => .global

def isClassName (site : Site) (slots : Slots) : Expr → Bool
  | .variable _ name =>
    site.storage slots name = .global && (site.symbols.qualified? name).any Symbol.isClass
  | _ => false

def receiver (site : Site) (slots : Slots) (loc : Location) : Instruction :=
  let type := match site.className with
    | some className => .object className
    | none => .error
  .access .load "this" type (slots.find? "this") loc

def target (site : Site) (name : String) : String × Bool :=
  match site.className, (site.memberHere? name).bind (·.signature?) with
  | some className, some signature => (fullName (some className) name, !signature.isStatic)
  | _, _ => (name, false)

def isStatic (site : Site) (className name : String) : Bool :=
  ((site.symbols.member? className name).bind (·.signature?)).any (·.isStatic)

mutual

def value (site : Site) (slots : Slots) : Expr → List Instruction
  | .literal m v => [.withOperand .push (.literal v) (site.program.typeAt m.id) m.loc]
  | .variable m name =>
    let type := site.program.typeAt m.id
    match site.storage slots name with
    | .slot slot => [.access .load name type (some slot) m.loc]
    | .field className =>
      [site.receiver slots m.loc,
        .withOperand .getField (.symbol (fullName (some className) name)) type m.loc]
    | .global => [.access .load name type none m.loc]
  | .receiver m => [site.receiver slots m.loc]
  | .binary m op left right =>
    value site slots left ++ value site slots right ++
      [.plain (.ofBinary op) (site.program.typeAt m.id) m.loc]
  | .unary m op operand =>
    value site slots operand ++ [.plain (.ofUnary op) (site.program.typeAt m.id) m.loc]
  | .call m name args =>
    let (target, takesReceiver) := site.target name
    let call (count : Nat) :=
      Instruction.withOperand .call (.call target count) (site.program.typeAt m.id) m.loc
    if takesReceiver then
      site.receiver slots m.loc :: values site slots args ++ [call (args.length + 1)]
    else values site slots args ++ [call args.length]
  | .invoke m object name args =>
    let type := site.program.typeOf object
    match type with
    | .object className =>
      let call (count : Nat) := Instruction.withOperand .call
        (.call (fullName (some className) name) count) (site.program.typeAt m.id) m.loc
      if site.isClassName slots object then values site slots args ++ [call args.length]
      else if site.isStatic className name then
        -- The object is evaluated all the same.
        value site slots object ++ .plain .pop type m.loc :: values site slots args ++
          [call args.length]
      else value site slots object ++ values site slots args ++ [call (args.length + 1)]
    | _ => []
  | .member m object name =>
    match site.program.typeOf object with
    | .object className =>
      value site slots object ++
        [.withOperand .getField (.symbol (fullName (some className) name))
          (site.program.typeAt m.id) m.loc]
    | _ => []
  | .create m type args =>
    match type with
    | .named className =>
      let created := site.program.typeAt m.id
      -- The second copy of the object is the receiver of the constructor.
      .withOperand .create (.symbol className) created m.loc :: .plain .dup created m.loc ::
        values site slots args ++
        [.withOperand .construct
          (.call (fullName (some className) constructorName) (args.length + 1)) .void m.loc]
    | _ => []
  | .stray _ => []

def values (site : Site) (slots : Slots) : List Expr → List Instruction
  | [] => []
  | e :: es => value site slots e ++ values site slots es

end

end Site
end Lumen.Code
