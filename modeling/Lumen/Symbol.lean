import Lumen.Location
import Lumen.Ty

namespace Lumen

structure Signature where
  params   : List Ty
  returns  : Ty
  isStatic : Bool
  -- Built-in routines take arguments of any type.
  builtin  : Bool
deriving DecidableEq

inductive Scope.Kind where
  | global
  | classBody
  | method
  | block
deriving DecidableEq

def Scope.Kind.text : Scope.Kind → String
  | global => "global"
  | classBody => "class"
  | method => "method"
  | block => "block"

inductive Symbol.Kind where
  | variable
  | parameter
  | field
  | classDef
  | routine (signature : Signature)
deriving DecidableEq

structure Symbol where
  name    : String
  type    : Ty
  -- The kind of the scope that declares it.
  home    : Scope.Kind
  isConst : Bool
  kind    : Symbol.Kind
  loc     : Location
deriving DecidableEq

namespace Symbol

def ofVariable (name : String) (type : Ty) (isConst : Bool) (loc : Location) : Symbol :=
  ⟨name, type, .global, isConst, .variable, loc⟩

def signature? (s : Symbol) : Option Signature :=
  match s.kind with
  | .routine signature => some signature
  | _ => none

def isClass (s : Symbol) : Bool :=
  s.kind = .classDef

def Kind.text : Kind → String
  | .variable => "variable"
  | .parameter => "parameter"
  | .field => "field"
  | .classDef => "class"
  | .routine signature => if signature.isStatic then "static routine" else "routine"

def typeText (s : Symbol) : String :=
  match s.signature? with
  | some signature =>
    "(" ++ ", ".intercalate (signature.params.map Ty.text) ++ ") -> " ++ signature.returns.text
  | none => s.type.text

def text (s : Symbol) : String :=
  s.kind.text ++ " " ++ s.name ++ ": " ++ s.typeText ++ if s.isConst then " const" else ""

end Symbol
end Lumen
