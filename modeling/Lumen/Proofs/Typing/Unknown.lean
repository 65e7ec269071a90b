import Lumen.Proofs.Typing.Inference

namespace Lumen

open Typing List

-- What is reported of the classes that `t` does not have, in the order in which it is met.
def TypeName.unknown (t : SymbolTable) (loc : Location) : TypeName → List Problem
  | .named name => if t.isClass name then [] else [⟨.undefinedClass name, loc⟩]
  | _ => []

mutual

def Expr.unknown (t : SymbolTable) : Expr → List Problem
  | .literal .. | .variable .. | .receiver _ | .stray _ => []
  | .binary _ _ left right => left.unknown t ++ right.unknown t
  | .unary _ _ operand => operand.unknown t
  | .call _ _ args => unknownOf t args
  | .invoke _ object _ args => object.unknown t ++ unknownOf t args
  | .member _ object _ => object.unknown t
  | .create m type args => unknownOf t args ++ type.unknown t m.loc

def unknownOf (t : SymbolTable) : List Expr → List Problem
  | [] => []
  | e :: es => e.unknown t ++ unknownOf t es

end

-- An initial value is spared the class that the declaration names.
def Expr.initialUnknown (t : SymbolTable) (declared : Option TypeName) : Expr → List Problem
  | .create m type args =>
    unknownOf t args ++ if declared = some type then [] else type.unknown t m.loc
  | e => e.unknown t

def Declaration.ofField (f : Field Expr) : Declaration :=
  ⟨f.name, f.loc, some f.type, f.init, f.isConst, false⟩

namespace Declaration

def typeUnknown (t : SymbolTable) (d : Declaration) : List Problem :=
  d.type.toList.flatMap (TypeName.unknown t d.loc)

-- `spared` tells whether the value is treated as an initial value.
def valueUnknown (t : SymbolTable) (spared : Bool) (d : Declaration) : List Problem :=
  d.init.toList.flatMap fun init => if spared then init.initialUnknown t d.type else init.unknown t

def localUnknown (t : SymbolTable) (d : Declaration) : List Problem :=
  d.typeUnknown t ++ d.valueUnknown t true

-- A declaration whose value is a new object of the class that it names.
theorem unknown_create {t : SymbolTable} {d : Declaration} {className : String} {m : Mark}
    {args : List Expr} (hc : t.isClass className = false) (ht : d.type = some (.named className))
    (hi : d.init = some (.create m (.named className) args)) :
    d.typeUnknown t = [⟨.undefinedClass className, d.loc⟩] ∧
      d.valueUnknown t true = unknownOf t args ∧
      d.valueUnknown t false = unknownOf t args ++ [⟨.undefinedClass className, m.loc⟩] := by
  simp [typeUnknown, valueUnknown, ht, hi, hc, Expr.initialUnknown, Expr.unknown, TypeName.unknown]

end Declaration

mutual

def Stmt.unknown (t : SymbolTable) : Stmt → List Problem
  | .variable loc name type init =>
    Declaration.localUnknown t ⟨name, loc, type, init, false, false⟩
  | .constant loc name type value =>
    Declaration.localUnknown t ⟨name, loc, some type, some value, true, false⟩
  | .block _ body => unknownIn t body
  | .assign _ target _ value => target.unknown t ++ value.unknown t
  | .result _ value => value.toList.flatMap (Expr.unknown t)
  | .branch _ condition thenBody elseBody =>
    condition.unknown t ++ unknownIn t thenBody ++ unknownInElse t elseBody
  | .whileLoop _ condition body => condition.unknown t ++ unknownIn t body
  | .forLoop _ init condition update body =>
    unknownInStep t init ++ condition.toList.flatMap (Expr.unknown t) ++ unknownInStep t update ++
      unknownIn t body
  | .evaluate _ e => e.unknown t
  | .bare e => e.unknown t
  | .breakLoop _ | .continueLoop _ | .classDef .. | .routine .. => []

def unknownIn (t : SymbolTable) : List Stmt → List Problem
  | [] => []
  | s :: rest => s.unknown t ++ unknownIn t rest

def unknownInElse (t : SymbolTable) : Option (List Stmt) → List Problem
  | none => []
  | some body => unknownIn t body

def unknownInStep (t : SymbolTable) : Option Stmt → List Problem
  | none => []
  | some s => s.unknown t

end

namespace Typing

theorem Cause.isUnknown_iff {cause : Cause} : cause.isUnknown ↔ cause.kind = .undefinedClass := by
  cases cause <;> simp [kind, isUnknown]

def Finding.unknown (f : Finding) : List Problem :=
  f.problems.filter (·.cause.isUnknown)

section Expressions

variable {mark : Mark} {parts : List Finding} {t : SymbolTable} {env : Environment}

@[simp] theorem unknown_node (own : List Problem) (type : Ty) :
    (Finding.node mark parts own type).unknown =
      parts.flatMap Finding.unknown ++ own.filter (·.cause.isUnknown) := by
  simp only [Finding.node, Finding.unknown, filter_append, filter_flatMap]
  rfl

theorem unknown_ofRule {rule : Except Cause Ty} (h : Plain rule) :
    (Finding.ofRule mark parts rule).unknown = parts.flatMap Finding.unknown := by
  cases rule
  case ok type => simp [Finding.ofRule]
  case error cause => simp [Finding.ofRule, (h cause rfl).2]

theorem unknown_argumentProblems (routine : String) (signature : Signature)
    (args : List (Ty × Location)) (loc : Location) :
    (argumentProblems routine signature args loc).filter (·.cause.isUnknown) = [] := by
  have hmisfits (index : Nat) (params : List Ty) :
      (misfits routine index params args).filter (·.cause.isUnknown) = [] := by
    fun_induction misfits routine index params args
    case case1 ih => exact ih
    case case2 ih => exact ih
    case case3 => rfl
  rw [argumentProblems]
  split
  · rfl
  · split
    · rfl
    · exact hmisfits 1 signature.params

theorem unknown_ofCall {rule : Except Cause Signature} (h : Plain rule) (routine : String)
    (args : List (Ty × Location)) :
    (Finding.ofCall mark parts routine args rule).unknown = parts.flatMap Finding.unknown := by
  cases rule
  case ok signature => simp [Finding.ofCall, unknown_argumentProblems]
  case error cause => simp [Finding.ofCall, (h cause rfl).2]

theorem unknown_created (h : env.isClass = t.isClass) (type : TypeName) :
    (Finding.ofRule mark parts (env.createdType type)).unknown =
      parts.flatMap Finding.unknown ++ type.unknown t mark.loc := by
  cases type
  case named name =>
    cases hc : t.isClass name <;>
      simp [Environment.createdType, writtenType, TypeName.unknown, h, hc, Finding.ofRule,
        Cause.isUnknown]
  all_goals simp [Environment.createdType, TypeName.unknown, Finding.ofRule, Cause.isUnknown]

mutual

theorem unknown_infer (h : env.isClass = t.isClass) (e : Expr) :
    (infer env e).unknown = e.unknown t := by
  cases e <;> simp only [infer, Expr.unknown]
  case literal m value => exact unknown_ofRule (plain_ok _)
  case «variable» m name => exact unknown_ofRule (env.variableType_plain name)
  case receiver m => exact unknown_ofRule env.receiverType_plain
  case binary m op left right =>
    rw [unknown_ofRule (binaryType_plain op _ _)]
    simp [unknown_infer h left, unknown_infer h right]
  case unary m op operand =>
    rw [unknown_ofRule (unaryType_plain op _)]
    simp [unknown_infer h operand]
  case member m object name =>
    rw [unknown_ofRule (env.memberType_plain _ name)]
    simp [unknown_infer h object]
  case create m type args => rw [unknown_created h, unknown_inferAll h args]
  case call m name args => rw [unknown_ofCall (env.routine_plain name), unknown_inferAll h args]
  case invoke m object name args =>
    have hargs := unknown_inferAll h args
    have hobject := unknown_infer h object
    split
    case h_1 objectMark className hc =>
      -- What stands for a class is a name.
      obtain ⟨rfl, -⟩ := env.namedClass?_some hc
      rw [unknown_ofCall (env.staticMethod_plain className name)]
      simp [hargs, Expr.unknown]
    case h_2 =>
      split
      · simp [hobject, hargs]
      · rw [unknown_ofCall (env.method_plain _ name)]
        simp [hobject, hargs]
      · rw [unknown_ofRule ((plain_error _).mpr ⟨rfl, rfl⟩)]
        simp [hobject, hargs]
  case stray s => rfl

theorem unknown_inferAll (h : env.isClass = t.isClass) (es : List Expr) :
    (inferAll env es).flatMap Finding.unknown = unknownOf t es := by
  cases es
  case nil => rfl
  case cons e es => rw [inferAll, flatMap_cons, unknown_infer h e, unknown_inferAll h es, unknownOf]

end

theorem unknown_inferInitial (h : env.isClass = t.isClass) (declared : Option TypeName)
    (init : Expr) :
    (inferInitial env declared init).unknown = init.initialUnknown t declared := by
  rw [inferInitial.eq_def]
  split
  case h_1 className m created args =>
    have hargs := unknown_inferAll h args
    split
    case isTrue hc => simp [Expr.initialUnknown, hc.1, hargs]
    case isFalse hc =>
      rw [unknown_infer h, Expr.initialUnknown, Expr.unknown]
      split
      case isFalse => rfl
      case isTrue hd =>
        cases hd
        have hk : t.isClass className := by simpa [h] using hc
        simp [TypeName.unknown, hk]
  case h_2 hother =>
    rw [unknown_infer h]
    cases init <;> try rfl
    case create m type args =>
      cases type <;> simp [Expr.initialUnknown, Expr.unknown, TypeName.unknown]
      case named name =>
        intro hd
        exact (hother name m name args hd rfl).elim

end Expressions

end Typing
end Lumen
