import Lumen.Symbol.Table
import Lumen.Typing.Problem

namespace Lumen.Typing

structure Environment where
  symbol?   : String → Option Symbol
  member?   : String → String → Option Symbol
  isClass   : String → Bool
  -- The class of `this`, inside an instance method.
  receiver? : Option String

structure Finding where
  type     : Ty
  -- The types of the expression and its parts, by their numbers.
  notes    : List (Nat × Ty)
  problems : List Problem

namespace Finding

def node (mark : Mark) (parts : List Finding) (own : List Problem) (type : Ty) : Finding where
  type := type
  notes := parts.flatMap notes ++ [(mark.id, type)]
  problems := parts.flatMap problems ++ own

def ofRule (mark : Mark) (parts : List Finding) : Except Cause Ty → Finding
  | .ok type => node mark parts [] type
  | .error cause => node mark parts [⟨cause, mark.loc⟩] .error

end Finding

def literalType : Literal → Ty
  | .int _ => .int
  | .float _ => .float
  | .string _ => .string
  | .bool _ => .bool
  | .null => .null

def writtenType (isClass : String → Bool) (type : TypeName) : Except Cause Ty :=
  match type with
  | .named name => if isClass name then .ok (.object name) else .error (.undefinedClass name)
  | _ => .ok (Ty.ofName type)

namespace Environment

variable (env : Environment)

def variableType (name : String) : Except Cause Ty :=
  match env.symbol? name with
  | none => .error (.undefinedSymbol name)
  | some symbol =>
    match symbol.kind with
    | .routine _ => .error (.routineAsValue name)
    | .classDef => .error (.classAsValue name)
    | .field => if env.receiver?.isSome then .ok symbol.type else .error (.misplacedField name)
    | .variable | .parameter => .ok symbol.type

def receiverType : Except Cause Ty :=
  match env.receiver? with
  | some className => .ok (.object className)
  | none => .error .misplacedReceiver

def memberType (object : Ty) (name : String) : Except Cause Ty :=
  match object with
  | .error => .ok .error
  | .object className =>
    match env.member? className name with
    | none => .error (.noField className name)
    | some symbol =>
      if symbol.kind = .field then .ok symbol.type else .error (.methodAsField className name)
  | other => .error (.memberOf name other)

def createdType (type : TypeName) : Except Cause Ty :=
  match type with
  | .named _ => writtenType env.isClass type
  | other => .error (.builtInConstructor other)

def routine (name : String) : Except Cause Signature :=
  match env.symbol? name with
  | none => .error (.undefinedRoutine name)
  | some symbol =>
    match symbol.kind with
    | .routine signature =>
      if symbol.home = .classBody ∧ ¬signature.isStatic ∧ env.receiver?.isNone then
        .error (.instanceCall name)
      else .ok signature
    | _ => .error (.notRoutine name)

def method (className name : String) : Except Cause Signature :=
  match env.member? className name with
  | none => .error (.noMethod className name)
  | some symbol =>
    match symbol.kind with
    | .routine signature => .ok signature
    | _ => .error (.fieldAsMethod className name)

def staticMethod (className name : String) : Except Cause Signature :=
  match env.method className name with
  | .ok signature =>
    if signature.isStatic then .ok signature
    else .error (.missingObject (fullName (some className) name))
  | .error cause => .error cause

def namedClass? : Expr → Option (Mark × String)
  | .variable mark name =>
    if (env.symbol? name).any Symbol.isClass then some (mark, name) else none
  | _ => none

end Environment

def binaryType (op : BinaryOp) (left right : Ty) : Except Cause Ty :=
  if left.isError || right.isError then .ok .error
  else match op.result? left right with
    | some type => .ok type
    | none => .error (.binaryOperands op left right)

def unaryType (op : UnaryOp) (operand : Ty) : Except Cause Ty :=
  if operand.isError then .ok .error
  else match op.result? operand with
    | some type => .ok type
    | none => .error (.unaryOperand op operand)

def misfits (routine : String) : Nat → List Ty → List (Ty × Location) → List Problem
  | index, expected :: params, (found, loc) :: args =>
    let rest := misfits routine (index + 1) params args
    if expected.assignable found then rest
    else ⟨.argument index routine expected found, loc⟩ :: rest
  | _, _, _ => []

def argumentProblems (routine : String) (signature : Signature) (args : List (Ty × Location))
    (loc : Location) : List Problem :=
  if args.length ≠ signature.params.length then
    [⟨.argumentCount routine signature.params.length args.length, loc⟩]
  else if signature.builtin then []
  else misfits routine 1 signature.params args

namespace Finding

def ofCall (mark : Mark) (parts : List Finding) (routine : String) (args : List (Ty × Location)) :
    Except Cause Signature → Finding
  | .ok signature =>
    node mark parts (argumentProblems routine signature args mark.loc) signature.returns
  | .error cause => node mark parts [⟨cause, mark.loc⟩] .error

end Finding

def argumentTypes (args : List Expr) (found : List Finding) : List (Ty × Location) :=
  found.zipWith (fun f e => (f.type, e.loc)) args

mutual

def infer (env : Environment) : Expr → Finding
  | .literal mark value => .ofRule mark [] (.ok (literalType value))
  | .variable mark name => .ofRule mark [] (env.variableType name)
  | .receiver mark => .ofRule mark [] env.receiverType
  | .binary mark op left right =>
    let left := infer env left
    let right := infer env right
    .ofRule mark [left, right] (binaryType op left.type right.type)
  | .unary mark op operand =>
    let operand := infer env operand
    .ofRule mark [operand] (unaryType op operand.type)
  | .member mark object name =>
    let object := infer env object
    .ofRule mark [object] (env.memberType object.type name)
  | .create mark type args => .ofRule mark (inferAll env args) (env.createdType type)
  | .call mark name args =>
    let found := inferAll env args
    .ofCall mark found name (argumentTypes args found) (env.routine name)
  | .invoke mark object name args =>
    let found := inferAll env args
    match env.namedClass? object with
    | some (objectMark, className) =>
      let object := .node objectMark [] [] (.object className)
      .ofCall mark (object :: found) (fullName (some className) name)
        (argumentTypes args found) (env.staticMethod className name)
    | none =>
      let object := infer env object
      match object.type with
      | .error => .node mark (object :: found) [] .error
      | .object className =>
        .ofCall mark (object :: found) (fullName (some className) name)
          (argumentTypes args found) (env.method className name)
      | other => .ofRule mark (object :: found) (.error (.methodOf name other))
  | .stray _ => ⟨.void, [], []⟩

def inferAll (env : Environment) : List Expr → List Finding
  | [] => []
  | e :: es => infer env e :: inferAll env es

end

-- The initial value of something declared. In `T x = new T()` with an unknown class `T`, that class
-- has been reported where `x` is declared.
def inferInitial (env : Environment) (declared : Option TypeName) (init : Expr) : Finding :=
  match declared, init with
  | some (.named className), .create mark (.named created) args =>
    if created = className ∧ ¬env.isClass created then
      .node mark (inferAll env args) [] .error
    else infer env init
  | _, _ => infer env init

end Lumen.Typing
