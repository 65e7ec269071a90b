import Lumen.Typing.Analysis

namespace Lumen

mutual

def Stmt.hasResult : Stmt → Bool
  | .result .. => true
  | .block _ body => anyHasResult body
  | .branch _ _ thenBody elseBody => anyHasResult thenBody || optionHasResult elseBody
  | .whileLoop _ _ body => anyHasResult body
  | .forLoop _ init _ update body =>
    stepHasResult init || stepHasResult update || anyHasResult body
  | .classDef .. | .routine .. | .variable .. | .constant .. | .assign .. | .breakLoop _
  | .continueLoop _ | .evaluate .. | .bare _ => false

def anyHasResult : List Stmt → Bool
  | [] => false
  | s :: rest => s.hasResult || anyHasResult rest

def optionHasResult : Option (List Stmt) → Bool
  | none => false
  | some body => anyHasResult body

def stepHasResult : Option Stmt → Bool
  | none => false
  | some s => s.hasResult

end

namespace Typing

def Analysis.variableType (a : Analysis) (name : String) (value : Ty) (loc : Location) :
    Ty × Analysis :=
  match value with
  | .void | .null => (.error, a.report (.noTypeFor name value) loc)
  | type => (type, a)

def checkVariable (place : Place) (a : Analysis) (name : String) (type : Option TypeName)
    (init : Option Expr) (loc : Location) : Ty × Analysis :=
  match type, init with
  | none, none => (.error, a)
  | none, some init =>
    let (value, a) := a.inferInitial place none init
    a.variableType name value loc
  | some type, none =>
    let (declared, a) := a.typeOf type loc
    (declared, a.reportIf (declared = .void) (.voidVariable name) loc)
  | some type, some init =>
    let (declared, a) := a.typeOf type loc
    let (value, a) := a.inferInitial place (some type) init
    let a := a.reportIf (declared = .void) (.voidVariable name) loc
    (declared, a.checkStored declared value (.variable name) loc)

def checkCondition (place : Place) (a : Analysis) (condition : Expr) : Analysis :=
  let (type, a) := a.infer place condition
  a.reportIf (!type.isError && type ≠ .bool) (.condition type) condition.loc

-- The constant that an assignment would change. The class of an object is the type recorded for it.
def constantTarget? (env : Environment) (types : Std.TreeMap Nat Ty) : Expr → Option String
  | .variable _ name => ((env.symbol? name).filter (·.isConst)).map (·.name)
  | .member _ object name => do
    let type ← types[← object.id?]?
    let className ← type.className?
    ((env.member? className name).filter (·.isConst)).map (·.name)
  | _ => none

def destination : Expr → Destination
  | .variable _ name => .plain name
  | .member _ _ name => .field name
  | _ => .other

def checkAssign (place : Place) (a : Analysis) (target : Expr) (op : Option BinaryOp)
    (value : Expr) (loc : Location) : Analysis :=
  let (targetType, a) := a.infer place target
  let (valueType, a) := a.infer place value
  match constantTarget? (a.environment place) a.types target with
  | some name => a.report (.constantTarget name) loc
  | none =>
    if targetType.isError || valueType.isError then a
    else match op with
      | none => a.checkStored targetType valueType (destination target) loc
      | some op =>
        match op.result? targetType valueType with
        | none => a.report (.assignOperands op targetType valueType) loc
        | some type => a.checkStored targetType type (destination target) loc

def checkResult (place : Place) (a : Analysis) (value : Option Expr) (loc : Location) :
    Analysis :=
  match value with
  | none =>
    a.reportIf (place.returns ≠ .void && !place.returns.isError)
      (.noResult place.routine place.returns) loc
  | some value =>
    let (type, a) := a.infer place value
    if place.returns = .void && !type.isError then
      a.report (.unexpectedResult place.routine) loc
    else
      a.reportIf (!place.returns.assignable type) (.wrongResult place.routine place.returns type)
        loc

mutual

-- `inLoop` tells whether a loop is around the statement.
def checkStmt (place : Place) (inLoop : Bool) (a : Analysis) : Stmt → Analysis
  | .variable loc name type init =>
    let (type, a) := checkVariable place a name type init loc
    a.declare place (Symbol.ofVariable name type false loc)
  | .constant loc name type value =>
    let (type, a) := checkVariable place a name (some type) (some value) loc
    a.declare place (Symbol.ofVariable name type true loc)
  | .block _ body => (checkBody place inLoop a.enter body).leave place
  | .assign loc target op value => checkAssign place a target op value loc
  | .result loc value => checkResult place a value loc
  | .branch _ condition thenBody elseBody =>
    let a := checkCondition place a condition
    let a := (checkBody place inLoop a.enter thenBody).leave place
    checkElse place inLoop a elseBody
  | .whileLoop _ condition body =>
    let a := checkCondition place a condition
    (checkBody place true a.enter body).leave place
  | .forLoop _ init condition update body =>
    let a := checkStep place inLoop a.enter init
    let a := match condition with
      | some condition => checkCondition place a condition
      | none => a
    let a := checkStep place inLoop a update
    let a := (checkBody place true a.enter body).leave place
    a.leave place
  | .breakLoop loc => a.reportIf (!inLoop) (.outsideLoop "break") loc
  | .continueLoop loc => a.reportIf (!inLoop) (.outsideLoop "continue") loc
  | .evaluate _ e => (a.infer place e).2
  | .bare e => (a.infer place e).2
  | .classDef loc _ _ _ => a.report .nestedDefinition loc
  | .routine loc _ _ _ _ _ => a.report .nestedDefinition loc

def checkBody (place : Place) (inLoop : Bool) (a : Analysis) : List Stmt → Analysis
  | [] => a
  | s :: rest => checkBody place inLoop (checkStmt place inLoop a s) rest

def checkElse (place : Place) (inLoop : Bool) (a : Analysis) : Option (List Stmt) → Analysis
  | none => a
  | some body => (checkBody place inLoop a.enter body).leave place

def checkStep (place : Place) (inLoop : Bool) (a : Analysis) : Option Stmt → Analysis
  | none => a
  | some s => checkStmt place inLoop a s

end

end Typing
end Lumen
