import Lumen.Tree

namespace Lumen

open List

structure Declaration where
  name    : String
  loc     : Location
  type    : Option TypeName
  init    : Option Expr
  isConst : Bool
  isParam : Bool

def Declaration.ofParam (p : Param) : Declaration :=
  ⟨p.name, p.loc, some p.type, none, false, true⟩

def Stmt.declaration? : Stmt → Option Declaration
  | .variable loc name type init => some ⟨name, loc, type, init, false, false⟩
  | .constant loc name type value => some ⟨name, loc, some type, some value, true, false⟩
  | _ => none

mutual

def Stmt.declarations : Stmt → List Declaration
  | .variable loc name type init => [⟨name, loc, type, init, false, false⟩]
  | .constant loc name type value => [⟨name, loc, some type, some value, true, false⟩]
  | .block _ body => declarationsIn body
  | .branch _ _ thenBody elseBody => declarationsIn thenBody ++ declarationsInElse elseBody
  | .whileLoop _ _ body => declarationsIn body
  | .forLoop _ init _ update body =>
    declarationsInStep init ++ declarationsInStep update ++ declarationsIn body
  | .routine _ _ params _ _ body => params.map .ofParam ++ declarationsIn body
  | .classDef _ _ _ methods => declarationsIn methods
  | .assign .. | .result .. | .breakLoop _ | .continueLoop _ | .evaluate .. | .bare _ => []

def declarationsIn : List Stmt → List Declaration
  | [] => []
  | s :: rest => s.declarations ++ declarationsIn rest

def declarationsInElse : Option (List Stmt) → List Declaration
  | none => []
  | some body => declarationsIn body

def declarationsInStep : Option Stmt → List Declaration
  | none => []
  | some s => s.declarations

end

mutual

-- The numbers of an expression and of all its parts. The parts come first.
def Expr.ids : Expr → List Nat
  | .literal m _ | .variable m _ | .receiver m => [m.id]
  | .binary m _ left right => left.ids ++ right.ids ++ [m.id]
  | .unary m _ operand => operand.ids ++ [m.id]
  | .call m _ args => idsOf args ++ [m.id]
  | .invoke m object _ args => object.ids ++ idsOf args ++ [m.id]
  | .member m object _ => object.ids ++ [m.id]
  | .create m _ args => idsOf args ++ [m.id]
  | .stray s => s.ids

def idsOf : List Expr → List Nat
  | [] => []
  | e :: es => e.ids ++ idsOf es

def idsOfOption : Option Expr → List Nat
  | none => []
  | some e => e.ids

def idsOfField : Field Expr → List Nat
  | ⟨_, _, init, _, _⟩ => idsOfOption init

def idsOfFields : List (Field Expr) → List Nat
  | [] => []
  | f :: fs => idsOfField f ++ idsOfFields fs

def Stmt.ids : Stmt → List Nat
  | .classDef _ _ fields methods => idsOfFields fields ++ idsIn methods
  | .routine _ _ _ _ _ body => idsIn body
  | .variable _ _ _ init => idsOfOption init
  | .constant _ _ _ value => value.ids
  | .block _ body => idsIn body
  | .assign _ target _ value => target.ids ++ value.ids
  | .result _ value => idsOfOption value
  | .branch _ condition thenBody elseBody =>
    condition.ids ++ idsIn thenBody ++ idsInElse elseBody
  | .whileLoop _ condition body => condition.ids ++ idsIn body
  | .forLoop _ init condition update body =>
    idsInStep init ++ idsOfOption condition ++ idsInStep update ++ idsIn body
  | .breakLoop _ | .continueLoop _ => []
  | .evaluate _ e => e.ids
  | .bare e => e.ids

def idsIn : List Stmt → List Nat
  | [] => []
  | s :: rest => s.ids ++ idsIn rest

def idsInElse : Option (List Stmt) → List Nat
  | none => []
  | some body => idsIn body

def idsInStep : Option Stmt → List Nat
  | none => []
  | some s => s.ids

end

mutual

def Expr.literals : Expr → List Literal
  | .literal _ value => [value]
  | .variable .. | .receiver _ => []
  | .binary _ _ left right => left.literals ++ right.literals
  | .unary _ _ operand => operand.literals
  | .call _ _ args => literalsOf args
  | .invoke _ object _ args => object.literals ++ literalsOf args
  | .member _ object _ => object.literals
  | .create _ _ args => literalsOf args
  | .stray s => s.literals

def literalsOf : List Expr → List Literal
  | [] => []
  | e :: es => e.literals ++ literalsOf es

def literalsOfOption : Option Expr → List Literal
  | none => []
  | some e => e.literals

def literalsOfField : Field Expr → List Literal
  | ⟨_, _, init, _, _⟩ => literalsOfOption init

def literalsOfFields : List (Field Expr) → List Literal
  | [] => []
  | f :: fs => literalsOfField f ++ literalsOfFields fs

def Stmt.literals : Stmt → List Literal
  | .classDef _ _ fields methods => literalsOfFields fields ++ literalsIn methods
  | .routine _ _ _ _ _ body => literalsIn body
  | .variable _ _ _ init => literalsOfOption init
  | .constant _ _ _ value => value.literals
  | .block _ body => literalsIn body
  | .assign _ target _ value => target.literals ++ value.literals
  | .result _ value => literalsOfOption value
  | .branch _ condition thenBody elseBody =>
    condition.literals ++ literalsIn thenBody ++ literalsInElse elseBody
  | .whileLoop _ condition body => condition.literals ++ literalsIn body
  | .forLoop _ init condition update body =>
    literalsInStep init ++ literalsOfOption condition ++ literalsInStep update ++ literalsIn body
  | .breakLoop _ | .continueLoop _ => []
  | .evaluate _ e => e.literals
  | .bare e => e.literals

def literalsIn : List Stmt → List Literal
  | [] => []
  | s :: rest => s.literals ++ literalsIn rest

def literalsInElse : Option (List Stmt) → List Literal
  | none => []
  | some body => literalsIn body

def literalsInStep : Option Stmt → List Literal
  | none => []
  | some s => s.literals

end

attribute [simp] Expr.literals literalsOf literalsOfOption literalsOfField literalsOfFields
  Stmt.literals literalsIn literalsInElse literalsInStep

def Mark.blank : Mark :=
  ⟨0, .none⟩

def Param.unmarked (p : Param) : Param :=
  { p with loc := .none }

mutual

def Expr.unmarked : Expr → Expr
  | .literal _ value => .literal .blank value
  | .variable _ name => .variable .blank name
  | .receiver _ => .receiver .blank
  | .binary _ op left right => .binary .blank op left.unmarked right.unmarked
  | .unary _ op operand => .unary .blank op operand.unmarked
  | .call _ name args => .call .blank name (unmarkedArgs args)
  | .invoke _ object name args => .invoke .blank object.unmarked name (unmarkedArgs args)
  | .member _ object name => .member .blank object.unmarked name
  | .create _ type args => .create .blank type (unmarkedArgs args)
  | .stray s => .stray s.unmarked

def unmarkedArgs : List Expr → List Expr
  | [] => []
  | e :: es => e.unmarked :: unmarkedArgs es

def unmarkedOption : Option Expr → Option Expr
  | none => none
  | some e => some e.unmarked

def Field.unmarked : Field Expr → Field Expr
  | ⟨name, type, init, isConst, _⟩ => ⟨name, type, unmarkedOption init, isConst, .none⟩

def unmarkedFields : List (Field Expr) → List (Field Expr)
  | [] => []
  | f :: fs => f.unmarked :: unmarkedFields fs

def Stmt.unmarked : Stmt → Stmt
  | .classDef _ name fields methods =>
    .classDef .none name (unmarkedFields fields) (unmarkedIn methods)
  | .routine _ name params returns isStatic body =>
    .routine .none name (params.map .unmarked) returns isStatic (unmarkedIn body)
  | .variable _ name type init => .variable .none name type (unmarkedOption init)
  | .constant _ name type value => .constant .none name type value.unmarked
  | .block _ body => .block .none (unmarkedIn body)
  | .assign _ target op value => .assign .none target.unmarked op value.unmarked
  | .result _ value => .result .none (unmarkedOption value)
  | .branch _ condition thenBody elseBody =>
    .branch .none condition.unmarked (unmarkedIn thenBody) (unmarkedElse elseBody)
  | .whileLoop _ condition body => .whileLoop .none condition.unmarked (unmarkedIn body)
  | .forLoop _ init condition update body =>
    .forLoop .none (unmarkedStep init) (unmarkedOption condition) (unmarkedStep update)
      (unmarkedIn body)
  | .breakLoop _ => .breakLoop .none
  | .continueLoop _ => .continueLoop .none
  | .evaluate _ e => .evaluate .none e.unmarked
  | .bare e => .bare e.unmarked

def unmarkedIn : List Stmt → List Stmt
  | [] => []
  | s :: rest => s.unmarked :: unmarkedIn rest

def unmarkedElse : Option (List Stmt) → Option (List Stmt)
  | none => none
  | some body => some (unmarkedIn body)

def unmarkedStep : Option Stmt → Option Stmt
  | none => none
  | some s => some s.unmarked

end

attribute [simp] Expr.unmarked Stmt.unmarked

theorem unmarkedArgs_eq (es : List Expr) : unmarkedArgs es = es.map Expr.unmarked := by
  induction es
  case nil => rfl
  case cons e es ih => simp [unmarkedArgs, ih]

theorem unmarkedFields_eq (fs : List (Field Expr)) : unmarkedFields fs = fs.map Field.unmarked := by
  induction fs
  case nil => rfl
  case cons f fs ih => simp [unmarkedFields, ih]

theorem unmarkedIn_eq (body : List Stmt) : unmarkedIn body = body.map Stmt.unmarked := by
  induction body
  case nil => rfl
  case cons s body ih => simp [unmarkedIn, ih]

def Mark.unnumbered (m : Mark) : Mark :=
  { m with id := 0 }

mutual

def Expr.unnumbered : Expr → Expr
  | .literal m value => .literal m.unnumbered value
  | .variable m name => .variable m.unnumbered name
  | .receiver m => .receiver m.unnumbered
  | .binary m op left right => .binary m.unnumbered op left.unnumbered right.unnumbered
  | .unary m op operand => .unary m.unnumbered op operand.unnumbered
  | .call m name args => .call m.unnumbered name (unnumberedArgs args)
  | .invoke m object name args =>
    .invoke m.unnumbered object.unnumbered name (unnumberedArgs args)
  | .member m object name => .member m.unnumbered object.unnumbered name
  | .create m type args => .create m.unnumbered type (unnumberedArgs args)
  | .stray s => .stray s.unnumbered

def unnumberedArgs : List Expr → List Expr
  | [] => []
  | e :: es => e.unnumbered :: unnumberedArgs es

def unnumberedOption : Option Expr → Option Expr
  | none => none
  | some e => some e.unnumbered

def Field.unnumbered : Field Expr → Field Expr
  | ⟨name, type, init, isConst, loc⟩ => ⟨name, type, unnumberedOption init, isConst, loc⟩

def unnumberedFields : List (Field Expr) → List (Field Expr)
  | [] => []
  | f :: fs => f.unnumbered :: unnumberedFields fs

def Stmt.unnumbered : Stmt → Stmt
  | .classDef loc name fields methods =>
    .classDef loc name (unnumberedFields fields) (unnumberedIn methods)
  | .routine loc name params returns isStatic body =>
    .routine loc name params returns isStatic (unnumberedIn body)
  | .variable loc name type init => .variable loc name type (unnumberedOption init)
  | .constant loc name type value => .constant loc name type value.unnumbered
  | .block loc body => .block loc (unnumberedIn body)
  | .assign loc target op value => .assign loc target.unnumbered op value.unnumbered
  | .result loc value => .result loc (unnumberedOption value)
  | .branch loc condition thenBody elseBody =>
    .branch loc condition.unnumbered (unnumberedIn thenBody) (unnumberedElse elseBody)
  | .whileLoop loc condition body => .whileLoop loc condition.unnumbered (unnumberedIn body)
  | .forLoop loc init condition update body =>
    .forLoop loc (unnumberedStep init) (unnumberedOption condition) (unnumberedStep update)
      (unnumberedIn body)
  | .breakLoop loc => .breakLoop loc
  | .continueLoop loc => .continueLoop loc
  | .evaluate loc e => .evaluate loc e.unnumbered
  | .bare e => .bare e.unnumbered

def unnumberedIn : List Stmt → List Stmt
  | [] => []
  | s :: rest => s.unnumbered :: unnumberedIn rest

def unnumberedElse : Option (List Stmt) → Option (List Stmt)
  | none => none
  | some body => some (unnumberedIn body)

def unnumberedStep : Option Stmt → Option Stmt
  | none => none
  | some s => some s.unnumbered

end

attribute [simp] Mark.unnumbered Expr.unnumbered Stmt.unnumbered unnumberedOption unnumberedElse
  unnumberedStep

@[simp] theorem unnumberedArgs_eq (es : List Expr) :
    unnumberedArgs es = es.map Expr.unnumbered := by
  induction es
  case nil => rfl
  case cons e es ih => simp [unnumberedArgs, ih]

@[simp] theorem unnumberedFields_eq (fs : List (Field Expr)) :
    unnumberedFields fs = fs.map Field.unnumbered := by
  induction fs
  case nil => rfl
  case cons f fs ih => simp [unnumberedFields, ih]

@[simp] theorem unnumberedIn_eq (body : List Stmt) :
    unnumberedIn body = body.map Stmt.unnumbered := by
  induction body
  case nil => rfl
  case cons s body ih => simp [unnumberedIn, ih]

mutual

theorem Expr.unmarked_unnumbered (e : Expr) : e.unnumbered.unmarked = e.unmarked := by
  cases e <;> simp only [Expr.unnumbered, Expr.unmarked, Expr.unmarked_unnumbered,
    unmarkedArgs_unnumbered, Stmt.unmarked_unnumbered]

theorem unmarkedArgs_unnumbered (args : List Expr) :
    unmarkedArgs (unnumberedArgs args) = unmarkedArgs args := by
  cases args <;> simp only [unnumberedArgs, unmarkedArgs, Expr.unmarked_unnumbered,
    unmarkedArgs_unnumbered]

theorem unmarkedOption_unnumbered (o : Option Expr) :
    unmarkedOption (unnumberedOption o) = unmarkedOption o := by
  cases o <;> simp only [unnumberedOption, unmarkedOption, Expr.unmarked_unnumbered]

theorem Field.unmarked_unnumbered (f : Field Expr) : f.unnumbered.unmarked = f.unmarked := by
  cases f
  simp only [Field.unnumbered, Field.unmarked, unmarkedOption_unnumbered]

theorem unmarkedFields_unnumbered (fs : List (Field Expr)) :
    unmarkedFields (unnumberedFields fs) = unmarkedFields fs := by
  cases fs <;> simp only [unnumberedFields, unmarkedFields, Field.unmarked_unnumbered,
    unmarkedFields_unnumbered]

theorem Stmt.unmarked_unnumbered (stmt : Stmt) : stmt.unnumbered.unmarked = stmt.unmarked := by
  cases stmt <;> simp only [Stmt.unnumbered, Stmt.unmarked, Expr.unmarked_unnumbered,
    unmarkedOption_unnumbered, unmarkedFields_unnumbered, unmarkedIn_unnumbered,
    unmarkedElse_unnumbered, unmarkedStep_unnumbered]

theorem unmarkedIn_unnumbered (body : List Stmt) :
    unmarkedIn (unnumberedIn body) = unmarkedIn body := by
  cases body <;> simp only [unnumberedIn, unmarkedIn, Stmt.unmarked_unnumbered,
    unmarkedIn_unnumbered]

theorem unmarkedElse_unnumbered (o : Option (List Stmt)) :
    unmarkedElse (unnumberedElse o) = unmarkedElse o := by
  cases o <;> simp only [unnumberedElse, unmarkedElse, unmarkedIn_unnumbered]

theorem unmarkedStep_unnumbered (o : Option Stmt) :
    unmarkedStep (unnumberedStep o) = unmarkedStep o := by
  cases o <;> simp only [unnumberedStep, unmarkedStep, Stmt.unmarked_unnumbered]

end

theorem Expr.mem_ids_of_id? {e : Expr} {id : Nat} (h : e.id? = some id) : id ∈ e.ids := by
  cases e <;> simp_all [Expr.id?, Expr.ids]

-- The form of what is read from tokens whose words all have the property `W`.
section Formed

variable (W : String → Prop)

def TypeName.Formed : TypeName → Prop
  | .named name => W name
  | _ => True

mutual

def Expr.Formed : Expr → Prop
  | .literal .. | .receiver _ => True
  | .variable _ name => W name
  | .binary _ _ left right => left.Formed ∧ right.Formed
  | .unary _ _ operand => operand.Formed
  | .call _ name args => W name ∧ FormedArgs args
  | .invoke _ object name args => object.Formed ∧ W name ∧ FormedArgs args
  | .member _ object name => object.Formed ∧ W name
  | .create _ type args => type.Formed W ∧ FormedArgs args
  | .stray _ => False

def FormedArgs : List Expr → Prop
  | [] => True
  | e :: es => e.Formed ∧ FormedArgs es

end

def FormedOption : Option Expr → Prop
  | none => True
  | some e => e.Formed W

def BinaryOp.assigns : BinaryOp → Bool
  | .add | .sub | .mul | .div | .mod => true
  | _ => false

def Stmt.isUpdate : Stmt → Bool
  | .assign .. | .evaluate .. => true
  | _ => false

def Stmt.isStart : Stmt → Bool
  | .variable .. | .assign .. | .evaluate .. => true
  | _ => false

mutual

def Stmt.Formed : Stmt → Prop
  | .classDef .. | .routine .. | .bare _ => False
  | .variable _ name type init =>
    W name ∧ (∀ t ∈ type, t.Formed W) ∧ FormedOption W init ∧ (type.isSome ∨ init.isSome)
  | .constant _ name type value => W name ∧ type.Formed W ∧ value.Formed W
  | .block _ body => FormedBody body
  | .assign _ target op value =>
    target.isTarget ∧ (∀ o ∈ op, o.assigns) ∧ target.Formed W ∧ value.Formed W
  | .result _ value => FormedOption W value
  | .branch _ condition thenBody elseBody =>
    condition.Formed W ∧ FormedBody thenBody ∧ FormedElse elseBody
  | .whileLoop _ condition body => condition.Formed W ∧ FormedBody body
  | .forLoop _ init condition update body =>
    (∀ s ∈ init, s.isStart) ∧ FormedStep init ∧ FormedOption W condition ∧
      (∀ s ∈ update, s.isUpdate) ∧ FormedStep update ∧ FormedBody body
  | .breakLoop _ | .continueLoop _ => True
  | .evaluate _ e => e.Formed W

def FormedBody : List Stmt → Prop
  | [] => True
  | s :: rest => s.Formed ∧ FormedBody rest

def FormedElse : Option (List Stmt) → Prop
  | none => True
  | some body => FormedBody body

def FormedStep : Option Stmt → Prop
  | none => True
  | some s => s.Formed

end

def Param.Formed (p : Param) : Prop :=
  W p.name ∧ p.type.Formed W

def Field.Formed (f : Field Expr) : Prop :=
  W f.name ∧ f.type.Formed W ∧ FormedOption W f.init ∧ (f.isConst → f.init.isSome)

def Stmt.FormedRoutine : Stmt → Prop
  | .routine _ name params returns _ body =>
    W name ∧ (∀ p ∈ params, p.Formed W) ∧ returns.Formed W ∧ FormedBody W body
  | _ => False

-- What can stand at top level: classes, static routines and statements.
def Stmt.FormedItem : Stmt → Prop
  | .classDef _ name fields methods =>
    W name ∧ (∀ f ∈ fields, f.Formed W) ∧ ∀ m ∈ methods, m.FormedRoutine W
  | .routine loc name params returns isStatic body =>
    isStatic ∧ (Stmt.routine loc name params returns isStatic body).FormedRoutine W
  | s => s.Formed W

end Formed

theorem declarationsInStep_of_isUpdate (h : ∀ u ∈ s, u.isUpdate) : declarationsInStep s = [] := by
  cases s
  case none => rfl
  case some s =>
    have hs := h s rfl
    cases s <;> first | rfl | cases hs

theorem idsIn_eq_flatMap (body : List Stmt) : idsIn body = body.flatMap Stmt.ids := by
  induction body
  case nil => rfl
  case cons s body ih => rw [idsIn, ih, flatMap_cons]

theorem idsIn_append (a b : List Stmt) : idsIn (a ++ b) = idsIn a ++ idsIn b := by
  rw [idsIn_eq_flatMap, idsIn_eq_flatMap, idsIn_eq_flatMap, flatMap_append]

theorem idsOfFields_eq_flatMap (fs : List (Field Expr)) :
    idsOfFields fs = fs.flatMap idsOfField := by
  induction fs
  case nil => rfl
  case cons f fs ih => rw [idsOfFields, ih, flatMap_cons]

theorem idsOf_append (a b : List Expr) : idsOf (a ++ b) = idsOf a ++ idsOf b := by
  induction a
  case nil => rfl
  case cons e a ih => simp [idsOf, ih]

theorem formedBody_iff {W : String → Prop} : FormedBody W body ↔ ∀ s ∈ body, s.Formed W := by
  induction body
  case nil => simp [FormedBody]
  case cons s body ih => simp [FormedBody, ih]

theorem formedArgs_iff {W : String → Prop} : FormedArgs W args ↔ ∀ e ∈ args, e.Formed W := by
  induction args
  case nil => simp [FormedArgs]
  case cons e args ih => simp [FormedArgs, ih]

end Lumen
