import Lumen.Double
import Lumen.Location

namespace Lumen

inductive TypeName where
  | int | float | string | bool | void
  | named (name : String)
deriving DecidableEq

namespace TypeName

def text : TypeName → String
  | int => "int"
  | float => "float"
  | string => "string"
  | bool => "bool"
  | void => "void"
  | named name => name

def ofText : String → TypeName
  | "int" => int
  | "float" => float
  | "string" => string
  | "bool" => bool
  | "void" => void
  | name => named name

end TypeName

inductive BinaryOp where
  | add | sub | mul | div | mod | pow
  | eq | ne | lt | le | gt | ge
  | and | or
deriving DecidableEq

inductive OperatorClass where
  | arithmetic | comparison | logical
deriving DecidableEq

namespace BinaryOp

def all : List BinaryOp :=
  [add, sub, mul, div, mod, pow, eq, ne, lt, le, gt, ge, and, or]

def symbol : BinaryOp → String
  | add => "+" | sub => "-" | mul => "*" | div => "/" | mod => "%" | pow => "**"
  | eq => "==" | ne => "!=" | lt => "<" | le => "<=" | gt => ">" | ge => ">="
  | and => "&&" | or => "||"

def operatorClass : BinaryOp → OperatorClass
  | add | sub | mul | div | mod | pow => .arithmetic
  | eq | ne | lt | le | gt | ge => .comparison
  | and | or => .logical

theorem mem_all (op : BinaryOp) : op ∈ all := by
  cases op <;> decide

theorem symbol_injective {a b : BinaryOp} (h : a.symbol = b.symbol) : a = b := by
  revert h
  cases a <;> cases b <;> decide

end BinaryOp

inductive UnaryOp where
  | neg | not
deriving DecidableEq

def UnaryOp.symbol : UnaryOp → String
  | neg => "-"
  | not => "!"

inductive Literal where
  | int (value : Int)
  | float (value : Double)
  | string (value : String)
  | bool (value : Bool)
  | null
deriving DecidableEq

-- What every expression carries: a number that tells it from the others of its unit, and its
-- place.
structure Mark where
  id  : Nat
  loc : Location
deriving DecidableEq

structure Param where
  name : String
  type : TypeName
  loc  : Location
deriving DecidableEq

structure Field (ε : Type) where
  name    : String
  type    : TypeName
  init    : Option ε
  isConst : Bool
  loc     : Location

mutual

inductive Expr where
  | literal  (mark : Mark) (value : Literal)
  | variable (mark : Mark) (name : String)
  | receiver (mark : Mark)
  | binary   (mark : Mark) (op : BinaryOp) (left right : Expr)
  | unary    (mark : Mark) (op : UnaryOp) (operand : Expr)
  | call     (mark : Mark) (name : String) (args : List Expr)
  | invoke   (mark : Mark) (object : Expr) (method : String) (args : List Expr)
  | member   (mark : Mark) (object : Expr) (name : String)
  | create   (mark : Mark) (type : TypeName) (args : List Expr)
  | stray    (statement : Stmt)

inductive Stmt where
  | classDef     (loc : Location) (name : String) (fields : List (Field Expr)) (methods : List Stmt)
  | routine      (loc : Location) (name : String) (params : List Param) (returns : TypeName)
                 (isStatic : Bool) (body : List Stmt)
  -- A variable without a type takes that of its initial value.
  | variable     (loc : Location) (name : String) (type : Option TypeName) (init : Option Expr)
  | constant     (loc : Location) (name : String) (type : TypeName) (value : Expr)
  | block        (loc : Location) (body : List Stmt)
  -- `target op= value`; without an operator a plain assignment.
  | assign       (loc : Location) (target : Expr) (op : Option BinaryOp) (value : Expr)
  | result       (loc : Location) (value : Option Expr)
  | branch       (loc : Location) (condition : Expr) (thenBody : List Stmt)
                 (elseBody : Option (List Stmt))
  | whileLoop    (loc : Location) (condition : Expr) (body : List Stmt)
  | forLoop      (loc : Location) (init : Option Stmt) (condition : Option Expr)
                 (update : Option Stmt) (body : List Stmt)
  | breakLoop    (loc : Location)
  | continueLoop (loc : Location)
  | evaluate     (loc : Location) (expr : Expr)
  | bare         (expr : Expr)

end

mutual

def Expr.loc : Expr → Location
  | .literal m _ | .variable m _ | .receiver m | .binary m _ _ _ | .unary m _ _ | .call m _ _
  | .invoke m _ _ _ | .member m _ _ | .create m _ _ => m.loc
  | .stray s => s.loc

def Stmt.loc : Stmt → Location
  | .classDef l _ _ _ | .routine l _ _ _ _ _ | .variable l _ _ _ | .constant l _ _ _
  | .block l _ | .assign l _ _ _ | .result l _ | .branch l _ _ _ | .whileLoop l _ _
  | .forLoop l _ _ _ _ | .breakLoop l | .continueLoop l | .evaluate l _ => l
  | .bare e => e.loc

end

def Expr.id? : Expr → Option Nat
  | .literal m _ | .variable m _ | .receiver m | .binary m _ _ _ | .unary m _ _ | .call m _ _
  | .invoke m _ _ _ | .member m _ _ | .create m _ _ => some m.id
  | .stray _ => none

def Expr.isTarget : Expr → Bool
  | .variable .. | .member .. => true
  | _ => false

abbrev Items := List Stmt

end Lumen
