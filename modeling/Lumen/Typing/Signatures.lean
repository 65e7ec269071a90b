import Lumen.Typing.Analysis

namespace Lumen.Typing

def builtIns : List String := ["print", "println"]

def builtIn (name : String) : Symbol where
  name := name
  type := .void
  home := .global
  isConst := false
  kind := .routine ⟨[.error], .void, true, true⟩
  loc := .none

namespace Analysis

def declareBuiltIns (a : Analysis) : Analysis :=
  builtIns.foldl (fun a name => a.declareIn SymbolTable.global (builtIn name)) a

def declareClass (a : Analysis) (name : String) (loc : Location) : Analysis × Option Nat :=
  match a.table.inScope? SymbolTable.global name with
  | some first => (a.report (.duplicate name first.loc.line) loc, none)
  | none =>
    let symbol : Symbol := ⟨name, .object name, .global, false, .classDef, loc⟩
    let scope := a.table.scopes.size
    ({ a with table :=
      (a.table.insert SymbolTable.global symbol).newScope .classBody name SymbolTable.global },
      some scope)

-- Declares all classes, so that any signature may name any class. Gives the scope of each item
-- that brings a new class.
def declareClasses (a : Analysis) (items : Items) : Analysis × List (Option Nat) :=
  let (a, scopes) := items.foldl
    (fun (a, scopes) item => match item with
      | .classDef loc name _ _ =>
        let (a, scope) := a.declareClass name loc
        (a, scope :: scopes)
      | _ => (a, none :: scopes))
    (a, [])
  (a, scopes.reverse)

def paramTypes (a : Analysis) (done : List Ty) : List Param → List Ty × Analysis
  | [] => (done.reverse, a)
  | p :: rest =>
    let (type, a) := a.typeOf p.type p.loc
    a.paramTypes (type :: done) rest

def declareParams (a : Analysis) (scope : Nat) : List Param → List Ty → Analysis
  | p :: params, type :: types =>
    let a := a.reportIf (type = .void) (.voidParameter p.name) p.loc
    let a := a.declareIn scope ⟨p.name, type, .method, false, .parameter, p.loc⟩
    a.declareParams scope params types
  | _, _ => a

def declareRoutine (a : Analysis) (className : Option String) (owner : Nat) (item : Stmt) :
    Analysis :=
  match item with
  | .routine loc name params returns isStatic _ =>
    let (returns, a) := a.typeOf returns loc
    let (types, a) := a.paramTypes [] params
    match a.table.inScope? owner name with
    | some first => a.report (.duplicate name first.loc.line) loc
    | none =>
      let kind := .routine ⟨types, returns, isStatic, false⟩
      let symbol : Symbol := ⟨name, returns, .global, false, kind, loc⟩
      let scope := a.table.scopes.size
      let table := (a.table.insert owner symbol).newScope .method (fullName className name) owner
      { a with table }.declareParams scope params types
  | _ => a

def declareFields (a : Analysis) (scope : Nat) : List (Field Expr) → Analysis
  | [] => a
  | f :: rest =>
    let (type, a) := a.typeOf f.type f.loc
    let a := a.declareIn scope ⟨f.name, type, .classBody, f.isConst, .field, f.loc⟩
    a.declareFields scope rest

-- Declares what an item brings, except for classes as such; `scope` is that of a new class. The
-- type of a global that is declared without one is not known yet.
def declareItem (a : Analysis) (item : Stmt) (scope : Option Nat) : Analysis :=
  match item with
  | .classDef _ name fields methods =>
    match scope with
    | none => a
    | some scope =>
      methods.foldl (fun a method => a.declareRoutine (some name) scope method)
        (a.declareFields scope fields)
  | .routine .. => a.declareRoutine none SymbolTable.global item
  | .variable loc name type _ =>
    match type with
    | none => a.declareIn SymbolTable.global (Symbol.ofVariable name .error false loc)
    | some type =>
      let (type, a) := a.typeOf type loc
      a.declareIn SymbolTable.global (Symbol.ofVariable name type false loc)
  | .constant loc name type _ =>
    let (type, a) := a.typeOf type loc
    a.declareIn SymbolTable.global (Symbol.ofVariable name type true loc)
  | _ => a

def declareItems (items : Items) : Analysis :=
  let (a, scopes) := empty.declareBuiltIns.declareClasses items
  (items.zip scopes).foldl (fun a (item, scope) => a.declareItem item scope) a

end Analysis
end Lumen.Typing
