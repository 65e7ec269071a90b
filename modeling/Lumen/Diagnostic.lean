import Lumen.Location

namespace Lumen

namespace Diagnostic

inductive Severity where
  | error | warning
deriving DecidableEq

inductive Kind where
  | syntaxError | typeMismatch | undefinedSymbol | undefinedClass | invalidConstructorCall
  | invalidOperator | duplicateDeclaration | argumentCountMismatch | constantAssignment
  | misplacedStatement | missingReturn
deriving DecidableEq

def Kind.label : Kind → String
  | syntaxError => "syntax error"
  | typeMismatch => "type mismatch"
  | undefinedSymbol => "undefined symbol"
  | undefinedClass => "undefined class"
  | invalidConstructorCall => "invalid constructor call"
  | invalidOperator => "invalid operator"
  | duplicateDeclaration => "duplicate declaration"
  | argumentCountMismatch => "argument count mismatch"
  | constantAssignment => "constant assignment"
  | misplacedStatement => "misplaced statement"
  | missingReturn => "missing return"

end Diagnostic

structure Diagnostic where
  severity : Diagnostic.Severity
  kind     : Diagnostic.Kind
  message  : String
  loc      : Location
deriving DecidableEq

namespace Diagnostic

def isError (d : Diagnostic) : Bool :=
  d.severity = .error

def display (d : Diagnostic) : String :=
  let mark := match d.severity with
    | .error => ""
    | .warning => "warning: "
  "Line " ++ toString d.loc.line ++ ": " ++ mark ++ d.message

def sorted (ds : List Diagnostic) : List Diagnostic :=
  ds.mergeSort (fun a b => a.loc ≤ b.loc)

theorem sorted_perm (ds : List Diagnostic) : (sorted ds).Perm ds :=
  List.mergeSort_perm _ _

end Diagnostic
end Lumen
