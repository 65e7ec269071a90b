import Lumen.Double.Writing
import Lumen.Text.Outline
import Lumen.Text.Quoted
import Lumen.Tree

namespace Lumen

open Text (Outline quoted)

def quotedWord (s : String) : Outline :=
  .word (quoted s)

def Location.outline (l : Location) : Outline :=
  .record "SourceLocation" [("line", .ofNat l.line), ("column", .ofNat l.column)]

def TypeName.outline : TypeName → Outline
  | .int => .word "Int"
  | .float => .word "Float"
  | .string => .word "String"
  | .bool => .word "Bool"
  | .void => .word "Void"
  | .named name => .wrapped "Class" (quotedWord name)

def BinaryOp.outline : BinaryOp → Outline
  | .add => .word "Add" | .sub => .word "Sub" | .mul => .word "Mul" | .div => .word "Div"
  | .mod => .word "Mod" | .pow => .word "Pow" | .eq => .word "Eq" | .ne => .word "Ne"
  | .lt => .word "Lt" | .le => .word "Le" | .gt => .word "Gt" | .ge => .word "Ge"
  | .and => .word "And" | .or => .word "Or"

def UnaryOp.outline : UnaryOp → Outline
  | .neg => .word "Neg"
  | .not => .word "Not"

def Literal.outline : Literal → Outline
  | .int n => .wrapped "Int" (.word (toString n))
  | .float x => .wrapped "Float" (.word (x.write .listing))
  | .string s => .wrapped "Str" (quotedWord s)
  | .bool b => .wrapped "Bool" (.ofBool b)
  | .null => .word "Null"

def Param.outline (p : Param) : Outline :=
  .record "Param" [("name", quotedWord p.name), ("param_type", p.type.outline),
    ("location", p.loc.outline)]

def Mark.outline (m : Mark) (name : String) (parts : List (String × Outline)) : Outline :=
  .record name (parts ++ [("id", .ofNat m.id), ("location", m.loc.outline)])

def statementOutline (loc : Location) (name : String) (parts : List (String × Outline)) :
    Outline :=
  .record name (parts ++ [("location", loc.outline)])

mutual

def Expr.outline : Expr → Outline
  | .literal m value => m.outline "Literal" [("value", value.outline)]
  | .variable m name => m.outline "Variable" [("name", quotedWord name)]
  | .receiver m => m.outline "This" []
  | .binary m op left right =>
    m.outline "BinaryOp" [("op", op.outline), ("left", left.outline), ("right", right.outline)]
  | .unary m op operand =>
    m.outline "UnaryOp" [("op", op.outline), ("operand", operand.outline)]
  | .call m name args =>
    m.outline "FunctionCall" [("name", quotedWord name), ("args", .list (exprOutlines args))]
  | .invoke m object name args =>
    m.outline "MethodCall" [("object", object.outline), ("method", quotedWord name),
      ("args", .list (exprOutlines args))]
  | .member m object name =>
    m.outline "MemberAccess" [("object", object.outline), ("member", quotedWord name)]
  | .create m type args =>
    m.outline "New" [("class_type", type.outline), ("args", .list (exprOutlines args))]
  | .stray s => s.outline

def exprOutlines : List Expr → List Outline
  | [] => []
  | e :: es => e.outline :: exprOutlines es

def exprOption : Option Expr → Outline
  | none => .ofOption id none
  | some e => .ofOption id (some e.outline)

def fieldOutline : Field Expr → Outline
  | ⟨name, type, init, isConst, loc⟩ =>
    statementOutline loc "Field" [("name", quotedWord name), ("field_type", type.outline),
      ("init", exprOption init), ("is_const", .ofBool isConst)]

def fieldOutlines : List (Field Expr) → List Outline
  | [] => []
  | f :: fs => fieldOutline f :: fieldOutlines fs

def Stmt.outline : Stmt → Outline
  | .classDef loc name fields methods =>
    statementOutline loc "ClassDef" [("name", quotedWord name),
      ("fields", .list (fieldOutlines fields)), ("methods", .list (stmtOutlines methods))]
  | .routine loc name params returns isStatic body =>
    statementOutline loc "FunctionDef" [("name", quotedWord name),
      ("params", .list (params.map Param.outline)), ("return_type", returns.outline),
      ("body", .list (stmtOutlines body)), ("is_static", .ofBool isStatic)]
  | .variable loc name type init =>
    statementOutline loc "VarDecl" [("name", quotedWord name),
      ("var_type", .ofOption TypeName.outline type), ("init", exprOption init)]
  | .constant loc name type value =>
    statementOutline loc "ConstDecl" [("name", quotedWord name), ("const_type", type.outline),
      ("value", value.outline)]
  | .block loc body => statementOutline loc "Block" [("statements", .list (stmtOutlines body))]
  | .assign loc target op value =>
    statementOutline loc "Assignment" [("target", target.outline),
      ("op", .ofOption BinaryOp.outline op), ("value", value.outline)]
  | .result loc value => statementOutline loc "Return" [("expr", exprOption value)]
  | .branch loc condition thenBody elseBody =>
    statementOutline loc "If" [("condition", condition.outline),
      ("then_branch", .list (stmtOutlines thenBody)), ("else_branch", bodyOption elseBody)]
  | .whileLoop loc condition body =>
    statementOutline loc "While" [("condition", condition.outline),
      ("body", .list (stmtOutlines body))]
  | .forLoop loc init condition update body =>
    statementOutline loc "For" [("init", stmtOption init), ("condition", exprOption condition),
      ("update", stmtOption update), ("body", .list (stmtOutlines body))]
  | .breakLoop loc => statementOutline loc "Break" []
  | .continueLoop loc => statementOutline loc "Continue" []
  | .evaluate loc e => statementOutline loc "ExpressionStatement" [("expr", e.outline)]
  | .bare e => e.outline

def stmtOutlines : List Stmt → List Outline
  | [] => []
  | s :: rest => s.outline :: stmtOutlines rest

def stmtOption : Option Stmt → Outline
  | none => .ofOption id none
  | some s => .ofOption id (some s.outline)

def bodyOption : Option (List Stmt) → Outline
  | none => .ofOption id none
  | some body => .ofOption id (some (.list (stmtOutlines body)))

end

end Lumen
