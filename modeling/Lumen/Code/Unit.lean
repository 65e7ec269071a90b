import Lumen.Code.Body

namespace Lumen.Code

def Routine.ofBody (name : String) (kind : Routine.Kind) (isInstance : Bool)
    (code : List Instruction) (slots : Slots) (loc : Location) : Routine :=
  let code := match code.getLast? with
    | some last => if last.opcode = .ret then code else code ++ [.plain .ret .void loc]
    | none => [.plain .ret .void loc]
  .ofCode name kind isInstance code slots.locals

-- Gives slots to the variables at top level. All statements there can use them.
def mainFrame (program : Checked) : Frame :=
  let declare (f : Frame) (name : String) (loc : Location) : Frame :=
    match program.symbols.qualified? name with
    | some symbol =>
      if symbol.loc = loc ∧ ¬symbol.type.isError then (f.declare name symbol.type).2 else f
    | none => f
  program.items.foldl
    (fun f item => match item with
      | .variable loc name _ _ => declare f name loc
      | .constant loc name _ _ => declare f name loc
      | _ => f)
    ⟨.ofReceiver none, 0⟩

def mainCode (program : Checked) : Routine :=
  let site : Site := ⟨program, .toplevel, none, .void⟩
  let isStatement (item : Stmt) := match item with
    | .classDef .. | .routine .. => false
    | _ => true
  let (code, f) := site.stmts none (mainFrame program) [] (program.items.filter isStatement)
  Routine.ofBody toplevelName .toplevel false code f.slots .none

def fieldCode (site : Site) (slots : Slots) (className : String) (field : Field Expr) :
    List Instruction :=
  match field.init with
  | none => []
  | some init =>
    if site.program.isFaulty init then []
    else
      let type := match site.symbols.member? className field.name with
        | some symbol => symbol.type
        | none => .error
      site.receiver slots field.loc :: site.value slots init ++
        [.withOperand .putField (.symbol (fullName (some className) field.name)) type
          field.loc]

def constructorCode (program : Checked) (className : String) (fields : List (Field Expr))
    (loc : Location) : Routine :=
  let site : Site := ⟨program, .constructor, some className, .void⟩
  let slots := Slots.ofReceiver (some className)
  Routine.ofBody (fullName (some className) constructorName) .constructor true
    (fields.flatMap (fieldCode site slots className)) slots loc

def declareParams (f : Frame) : List Param → List Ty → Frame
  | p :: params, type :: types => declareParams (f.declare p.name type).2 params types
  | _, _ => f

-- The code of a routine or method. A second definition of the same name gives none.
def routineCode? (program : Checked) (className : Option String) (item : Stmt) :
    Option Routine := do
  let .routine loc name params _ isStatic body := item | none
  let qualified := fullName className name
  let symbol ← program.symbols.qualified? qualified
  if symbol.loc ≠ loc then none
  let signature ← symbol.signature?
  let kind := if className.isSome then .method else .function
  let receiver := if isStatic then none else className
  let site : Site := ⟨program, kind, className, signature.returns⟩
  let f := declareParams ⟨.ofReceiver receiver, 0⟩ params signature.params
  let (code, f) := site.stmts none f [] body
  return Routine.ofBody qualified kind receiver.isSome code f.slots loc

def classCode (program : Checked) (item : Stmt) : List Routine :=
  match item with
  | .classDef loc name fields methods =>
    if (program.symbols.qualified? name).any fun s => s.isClass && s.loc = loc then
      constructorCode program name fields loc ::
        methods.filterMap (routineCode? program (some name))
    else []
  | _ => []

def routines (program : Checked) : List Routine :=
  mainCode program :: program.items.flatMap (classCode program) ++
    program.items.filterMap (routineCode? program none)

end Lumen.Code
