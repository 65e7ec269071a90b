import Lumen.Proofs.Typing.Valid

namespace Lumen

open SymbolTable

namespace Typing

structure Lookup where
  -- The routine whose body is checked.
  routine     : String
  environment : Environment
  expr        : Expr

def Analysis.lookup (a : Analysis) (place : Place) (e : Expr) : Lookup :=
  ⟨place.routine, a.environment place, e⟩

mutual

def stmtLookups (place : Place) (inLoop : Bool) (a : Analysis) : Stmt → List Lookup
  | .variable _ _ _ init => init.toList.map (a.lookup place)
  | .constant _ _ _ value => [a.lookup place value]
  | .block _ body => bodyLookups place inLoop a.enter body
  | .assign _ target _ value =>
    [a.lookup place target, (a.infer place target).2.lookup place value]
  | .result _ value => value.toList.map (a.lookup place)
  | .branch _ condition thenBody elseBody =>
    let inside := (checkCondition place a condition).enter
    a.lookup place condition :: bodyLookups place inLoop inside thenBody ++
      elseLookups place inLoop ((checkBody place inLoop inside thenBody).leave place) elseBody
  | .whileLoop _ condition body =>
    a.lookup place condition :: bodyLookups place true (checkCondition place a condition).enter body
  | .forLoop _ init condition update body =>
    let started := checkStep place inLoop a.enter init
    let decided := match condition with
      | some condition => checkCondition place started condition
      | none => started
    stepLookups place inLoop a.enter init ++ condition.toList.map (started.lookup place) ++
      stepLookups place inLoop decided update ++
      bodyLookups place true (checkStep place inLoop decided update).enter body
  | .evaluate _ e => [a.lookup place e]
  | .bare e => [a.lookup place e]
  | .breakLoop _ | .continueLoop _ | .classDef .. | .routine .. => []

def bodyLookups (place : Place) (inLoop : Bool) (a : Analysis) : List Stmt → List Lookup
  | [] => []
  | s :: rest =>
    stmtLookups place inLoop a s ++ bodyLookups place inLoop (checkStmt place inLoop a s) rest

def elseLookups (place : Place) (inLoop : Bool) (a : Analysis) : Option (List Stmt) → List Lookup
  | none => []
  | some body => bodyLookups place inLoop a.enter body

def stepLookups (place : Place) (inLoop : Bool) (a : Analysis) : Option Stmt → List Lookup
  | none => []
  | some s => stmtLookups place inLoop a s

end

def lookupsAlong {α : Type} (check : Analysis → α → Analysis) (look : Analysis → α → List Lookup)
    (a : Analysis) : List α → List Lookup
  | [] => []
  | x :: xs => look a x ++ lookupsAlong check look (check a x) xs

def globalLookups (place : Place) (a : Analysis) (name : String) (init : Option Expr) :
    List Lookup :=
  match a.table.inScope? global name with
  | none => []
  | some _ => init.toList.map (a.lookup place)

def itemLookups (place : Place) (a : Analysis) : Stmt → List Lookup
  | .classDef .. | .routine .. => []
  | .variable _ name _ init => globalLookups place a name init
  | .constant _ name _ value => globalLookups place a name (some value)
  | s => stmtLookups place false a s

def routineLookups (className : Option String) (outer : List Nat) (a : Analysis) :
    Stmt → List Lookup
  | .routine _ name _ returns isStatic body =>
    match a.table.routineScope? (fullName className name) with
    | none => []
    | some scope =>
      bodyLookups ⟨fullName className name, resultType a.table returns,
        if isStatic then none else className, scope :: outer⟩ false a body
  | _ => []

def fieldLookups (place : Place) (a : Analysis) (field : Field Expr) : List Lookup :=
  field.init.toList.map (a.lookup place)

def classLookups (a : Analysis) : Stmt → List Lookup
  | .classDef _ name fields methods =>
    match a.table.classScope? name with
    | none => []
    | some scope =>
      let outer := [scope, global]
      let place : Place := ⟨fullName (some name) constructorName, .void, some name, outer⟩
      lookupsAlong (checkField place scope) (fieldLookups place) a fields ++
        lookupsAlong (checkRoutine (some name) outer) (routineLookups (some name) outer)
          (fields.foldl (checkField place scope) a) methods
  | _ => []

def lookups (items : Items) : List Lookup :=
  let a := Analysis.declareItems items
  let place : Place :=
    ⟨toplevelName, .void, none, [a.table.scopes.size, global]⟩
  let start := { a with table := a.table.newScope .method toplevelName global }
  let main := checkMain items a
  lookupsAlong (checkItem place) (itemLookups place) start items ++
    lookupsAlong checkClass classLookups main items ++
    lookupsAlong (checkRoutine none [global])
      (routineLookups none [global]) (items.foldl checkClass main) items

end Typing

def Setting.lookup (g : Setting) (routine : String) (p : Names × Expr) : Typing.Lookup :=
  ⟨routine, g.environment p.1, p.2⟩

end Lumen
