import Lumen.Diagnostic
import Lumen.Symbol

namespace Lumen.Typing

inductive Destination where
  | variable (name : String)
  | field (name : String)
  | plain (name : String)
  | other
deriving DecidableEq

def Destination.text : Destination → String
  | .variable name => "variable '" ++ name ++ "'"
  | .field name => "field '" ++ name ++ "'"
  | .plain name => "'" ++ name ++ "'"
  | .other => "target"

inductive Cause where
  -- Declarations.
  | undefinedClass (name : String)
  | duplicate (name : String) (firstLine : Nat)
  | voidParameter (name : String)
  | voidVariable (name : String)
  | noTypeFor (name : String) (value : Ty)
  | nestedDefinition
  -- Names.
  | undefinedSymbol (name : String)
  | routineAsValue (name : String)
  | classAsValue (name : String)
  | misplacedField (name : String)
  | misplacedReceiver
  -- Operators.
  | binaryOperands (op : BinaryOp) (left right : Ty)
  | unaryOperand (op : UnaryOp) (operand : Ty)
  | assignOperands (op : BinaryOp) (target value : Ty)
  -- Members.
  | memberOf (name : String) (object : Ty)
  | noField (className name : String)
  | methodAsField (className name : String)
  -- Calls.
  | undefinedRoutine (name : String)
  | notRoutine (name : String)
  | instanceCall (name : String)
  | methodOf (name : String) (object : Ty)
  | noMethod (className name : String)
  | fieldAsMethod (className name : String)
  | missingObject (qualified : String)
  | argumentCount (routine : String) (expected found : Nat)
  | argument (index : Nat) (routine : String) (expected found : Ty)
  | builtInConstructor (type : TypeName)
  -- Statements.
  | condition (found : Ty)
  | outsideLoop (word : String)
  | constantTarget (name : String)
  | stored (value : Ty) (destination : Destination) (expected : Ty)
  | noResult (routine : String) (expected : Ty)
  | unexpectedResult (routine : String)
  | wrongResult (routine : String) (expected found : Ty)
  | missingReturn (routine : String) (expected : Ty)
deriving DecidableEq

namespace Cause

def kind : Cause → Diagnostic.Kind
  | undefinedClass _ => .undefinedClass
  | duplicate .. => .duplicateDeclaration
  | undefinedSymbol _ | noField .. | undefinedRoutine _ | noMethod .. => .undefinedSymbol
  | nestedDefinition | misplacedField _ | misplacedReceiver | instanceCall _ | missingObject _
  | outsideLoop _ => .misplacedStatement
  | binaryOperands .. | unaryOperand .. | assignOperands .. => .invalidOperator
  | argumentCount .. => .argumentCountMismatch
  | builtInConstructor _ => .invalidConstructorCall
  | constantTarget _ => .constantAssignment
  | missingReturn .. => .missingReturn
  | voidParameter _ | voidVariable _ | noTypeFor .. | routineAsValue _ | classAsValue _
  | memberOf .. | methodAsField .. | notRoutine _ | methodOf .. | fieldAsMethod .. | argument ..
  | condition _ | stored .. | noResult .. | unexpectedResult _ | wrongResult .. => .typeMismatch

def severity : Cause → Diagnostic.Severity
  | missingReturn .. => .warning
  | _ => .error

def message : Cause → String
  | undefinedClass name => "Undefined class '" ++ name ++ "'"
  | duplicate name line =>
    "'" ++ name ++ "' is already declared in this scope (line " ++ toString line ++ ")"
  | voidParameter name => "Parameter '" ++ name ++ "' cannot have type void"
  | voidVariable name => "Variable '" ++ name ++ "' cannot have type void"
  | noTypeFor name value =>
    "Cannot infer the type of '" ++ name ++ "' from a " ++ value.text ++ " value"
  | nestedDefinition => "Definitions are only allowed at top level"
  | undefinedSymbol name => "Undefined symbol '" ++ name ++ "'"
  | routineAsValue name => "'" ++ name ++ "' is a routine, not a value"
  | classAsValue name => "'" ++ name ++ "' is a class, not a value"
  | misplacedField name => "Field '" ++ name ++ "' can only be used inside an instance method"
  | misplacedReceiver => "'this' can only be used inside an instance method"
  | binaryOperands op left right =>
    "Operator '" ++ op.symbol ++ "' cannot be applied to " ++ left.text ++ " and " ++ right.text
  | unaryOperand op operand =>
    "Operator '" ++ op.symbol ++ "' cannot be applied to " ++ operand.text
  | assignOperands op target value =>
    "Operator '" ++ op.symbol ++ "=' cannot be applied to " ++ target.text ++ " and " ++ value.text
  | memberOf name object => "Cannot access member '" ++ name ++ "' on " ++ object.text
  | noField className name => "Class '" ++ className ++ "' has no field '" ++ name ++ "'"
  | methodAsField className name =>
    "'" ++ name ++ "' is a method of '" ++ className ++ "', not a field"
  | undefinedRoutine name => "Undefined routine '" ++ name ++ "'"
  | notRoutine name => "'" ++ name ++ "' is not a routine"
  | instanceCall name => "Cannot call instance method '" ++ name ++ "' from a static context"
  | methodOf name object => "Cannot call method '" ++ name ++ "' on " ++ object.text
  | noMethod className name => "Class '" ++ className ++ "' has no method '" ++ name ++ "'"
  | fieldAsMethod className name =>
    "'" ++ name ++ "' is a field of '" ++ className ++ "', not a method"
  | missingObject qualified =>
    "Instance method '" ++ qualified ++ "' needs an object to be called on"
  | argumentCount routine expected found =>
    "'" ++ routine ++ "' expects " ++ toString expected ++ " argument" ++
      (if expected = 1 then "" else "s") ++ ", found " ++ toString found
  | argument index routine expected found =>
    "Argument " ++ toString index ++ " of '" ++ routine ++ "' expects " ++ expected.text ++
      ", found " ++ found.text
  | builtInConstructor type =>
    "Cannot construct built-in type '" ++ type.text ++ "' with 'new'"
  | condition found => "Condition must be bool, found " ++ found.text
  | outsideLoop word => "'" ++ word ++ "' outside of a loop"
  | constantTarget name => "Cannot assign to constant '" ++ name ++ "'"
  | stored value destination expected =>
    "Cannot assign " ++ value.text ++ " to " ++ destination.text ++ " of type " ++ expected.text
  | noResult routine expected =>
    "Routine '" ++ routine ++ "' must return a value of type " ++ expected.text
  | unexpectedResult routine => "Cannot return a value from void routine '" ++ routine ++ "'"
  | wrongResult routine expected found =>
    "Cannot return " ++ found.text ++ " from routine '" ++ routine ++ "' returning " ++
      expected.text
  | missingReturn routine expected =>
    "Routine '" ++ routine ++ "' returns " ++ expected.text ++ " but has no return statement"

end Cause

structure Problem where
  cause : Cause
  loc   : Location
deriving DecidableEq

def Problem.diagnostic (p : Problem) : Diagnostic where
  severity := p.cause.severity
  kind := p.cause.kind
  message := p.cause.message
  loc := p.loc

end Lumen.Typing
