import Lumen.Symbol.Scope

namespace Lumen

structure SymbolTable where
  scopes   : Array Scope
  -- The scope of each class, and of each routine by its qualified name.
  classes  : Std.TreeMap String Nat
  routines : Std.TreeMap String Nat

namespace SymbolTable

def global : Nat := 0

def empty : SymbolTable :=
  ⟨#[Scope.empty .global "<global>" none], ∅, ∅⟩

-- Adds a scope at the next position. The first scope of a name keeps that name.
def newScope (t : SymbolTable) (kind : Scope.Kind) (name : String) (parent : Nat) :
    SymbolTable where
  scopes := t.scopes.push (Scope.empty kind name (some parent))
  classes := if kind = .classBody then t.classes.insertIfNew name t.scopes.size else t.classes
  routines := if kind = .method then t.routines.insertIfNew name t.scopes.size else t.routines

def inScope? (t : SymbolTable) (scope : Nat) (name : String) : Option Symbol :=
  t.scopes[scope]?.bind (·.get? name)

def insert (t : SymbolTable) (scope : Nat) (symbol : Symbol) : SymbolTable :=
  { t with scopes := t.scopes.modify scope (·.insert symbol) }

def declare (t : SymbolTable) (scope : Nat) (symbol : Symbol) : Except Location SymbolTable :=
  match t.inScope? scope symbol.name with
  | some first => .error first.loc
  | none => .ok (t.insert scope symbol)

-- The symbol of a name, from a scope outwards. The parent of a scope is an earlier one.
def find? (t : SymbolTable) (scope : Nat) (name : String) : Option Symbol :=
  match t.inScope? scope name with
  | some symbol => some symbol
  | none =>
    match t.scopes[scope]?.bind (·.parent) with
    | some parent => if parent < scope then t.find? parent name else none
    | none => none
termination_by scope

def classScope? (t : SymbolTable) (name : String) : Option Nat :=
  t.classes[name]?

def routineScope? (t : SymbolTable) (qualified : String) : Option Nat :=
  t.routines[qualified]?

def isClass (t : SymbolTable) (name : String) : Bool :=
  t.classes.contains name

def member? (t : SymbolTable) (className name : String) : Option Symbol :=
  (t.classScope? className).bind (t.inScope? · name)

def qualified? (t : SymbolTable) (qualified : String) : Option Symbol :=
  let cs := qualified.toList
  match cs.dropWhile (· ≠ '.') with
  | _ :: name => t.member? (String.ofList (cs.takeWhile (· ≠ '.'))) (String.ofList name)
  | [] => t.inScope? global qualified

def retype (t : SymbolTable) (scope : Nat) (name : String) (type : Ty) : SymbolTable :=
  { t with scopes := t.scopes.modify scope (·.retype name type) }

def retire (t : SymbolTable) (scope : Nat) (symbols : List Symbol) : SymbolTable :=
  { t with scopes := t.scopes.modify scope (·.retire symbols) }

def text (t : SymbolTable) : String :=
  String.join (t.scopes.toList.map Scope.text)

end SymbolTable

def fullName (className : Option String) (name : String) : String :=
  match className with
  | some className => className ++ "." ++ name
  | none => name

end Lumen
