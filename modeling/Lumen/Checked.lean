import Lumen.Typing.Body
import Lumen.Typing.Signatures

namespace Lumen

def toplevelName : String := "<main>"

def constructorName : String := "<init>"

namespace Typing

-- A variable or constant at top level. Its symbol has been declared already, and a second
-- declaration of the same name has been reported: only its value is looked at.
def checkGlobal (place : Place) (a : Analysis) (name : String) (type : Option TypeName)
    (init : Option Expr) (loc : Location) : Analysis :=
  match a.table.inScope? SymbolTable.global name with
  | none => a
  | some symbol =>
    if symbol.loc ≠ loc then
      match init with
      | some init => (a.infer place init).2
      | none => a
    else
      match init with
      | none => a.reportIf (symbol.type = .void) (.voidVariable name) loc
      | some init =>
        let (value, a) := a.inferInitial place type init
        match type with
        | none =>
          let (type, a) := a.variableType name value loc
          { a with table := a.table.retype SymbolTable.global name type }
        | some _ =>
          let a := a.reportIf (symbol.type = .void) (.voidVariable name) loc
          a.checkStored symbol.type value (.variable name) loc

def checkItem (place : Place) (a : Analysis) (item : Stmt) : Analysis :=
  match item with
  | .classDef .. | .routine .. => a
  | .variable loc name type init => checkGlobal place a name type init loc
  | .constant loc name type value => checkGlobal place a name (some type) (some value) loc
  | _ => checkStmt place false a item

def checkMain (items : Items) (a : Analysis) : Analysis :=
  let scope := a.table.scopes.size
  let place : Place := ⟨toplevelName, .void, none, [scope, SymbolTable.global]⟩
  let a := { a with table := a.table.newScope .method toplevelName SymbolTable.global }
  items.foldl (checkItem place) a

def resultType (table : SymbolTable) (type : TypeName) : Ty :=
  match writtenType table.isClass type with
  | .ok type => type
  | .error _ => .error

def checkRoutine (className : Option String) (outer : List Nat) (a : Analysis) (item : Stmt) :
    Analysis :=
  match item with
  | .routine loc name _ returns isStatic body =>
    let qualified := fullName className name
    match a.table.routineScope? qualified with
    | none => a
    | some scope =>
      let returns := resultType a.table returns
      let receiver? := if isStatic then none else className
      let a := checkBody ⟨qualified, returns, receiver?, scope :: outer⟩ false a body
      a.reportIf (!anyHasResult body && returns ≠ .void && !returns.isError)
        (.missingReturn name returns) loc
  | _ => a

def checkField (place : Place) (scope : Nat) (a : Analysis) (field : Field Expr) : Analysis :=
  match field.init with
  | none => a
  | some init =>
    let declared := match a.table.inScope? scope field.name with
      | some symbol => symbol.type
      | none => .error
    let (value, a) := a.inferInitial place (some field.type) init
    a.checkStored declared value (.field field.name) init.loc

def checkClass (a : Analysis) (item : Stmt) : Analysis :=
  match item with
  | .classDef _ name fields methods =>
    match a.table.classScope? name with
    | none => a
    | some scope =>
      let outer := [scope, SymbolTable.global]
      let place : Place := ⟨fullName (some name) constructorName, .void, some name, outer⟩
      methods.foldl (checkRoutine (some name) outer) (fields.foldl (checkField place scope) a)
  | _ => a

def checkItems (items : Items) : Analysis :=
  let a := checkMain items (Analysis.declareItems items)
  let a := items.foldl checkClass a
  items.foldl (checkRoutine none [SymbolTable.global]) a

end Typing

structure Checked where
  items       : Items
  symbols     : SymbolTable
  types       : Std.TreeMap Nat Ty
  diagnostics : List Diagnostic

namespace Checked

def ofItems (items : Items) : Checked :=
  let a := Typing.checkItems items
  ⟨items, a.table, a.types, Diagnostic.sorted (a.problems.reverse.map (·.diagnostic))⟩

def typeAt (c : Checked) (id : Nat) : Ty :=
  c.types[id]?.getD .error

def typeOf (c : Checked) (e : Expr) : Ty :=
  match e.id? with
  | some id => c.typeAt id
  | none => .error

def isSound (c : Checked) : Bool :=
  !c.diagnostics.any Diagnostic.isError

end Checked
end Lumen
