import Lumen.Proofs.Tree

namespace Lumen

open List

mutual

def Expr.nodes : Expr → List Expr
  | .literal m value => [.literal m value]
  | .variable m name => [.variable m name]
  | .receiver m => [.receiver m]
  | .binary m op left right => left.nodes ++ right.nodes ++ [.binary m op left right]
  | .unary m op operand => operand.nodes ++ [.unary m op operand]
  | .call m name args => nodesOf args ++ [.call m name args]
  | .invoke m object name args => object.nodes ++ nodesOf args ++ [.invoke m object name args]
  | .member m object name => object.nodes ++ [.member m object name]
  | .create m type args => nodesOf args ++ [.create m type args]
  -- What stands here is no expression.
  | .stray s => s.nodes

def nodesOf : List Expr → List Expr
  | [] => []
  | e :: es => e.nodes ++ nodesOf es

def nodesOfOption : Option Expr → List Expr
  | none => []
  | some e => e.nodes

def nodesOfField : Field Expr → List Expr
  | ⟨_, _, init, _, _⟩ => nodesOfOption init

def nodesOfFields : List (Field Expr) → List Expr
  | [] => []
  | f :: fs => nodesOfField f ++ nodesOfFields fs

def Stmt.nodes : Stmt → List Expr
  | .classDef _ _ fields methods => nodesOfFields fields ++ nodesIn methods
  | .routine _ _ _ _ _ body => nodesIn body
  | .variable _ _ _ init => nodesOfOption init
  | .constant _ _ _ value => value.nodes
  | .block _ body => nodesIn body
  | .assign _ target _ value => target.nodes ++ value.nodes
  | .result _ value => nodesOfOption value
  | .branch _ condition thenBody elseBody =>
    condition.nodes ++ nodesIn thenBody ++ nodesInElse elseBody
  | .whileLoop _ condition body => condition.nodes ++ nodesIn body
  | .forLoop _ init condition update body =>
    nodesInStep init ++ nodesOfOption condition ++ nodesInStep update ++ nodesIn body
  | .breakLoop _ | .continueLoop _ => []
  | .evaluate _ e => e.nodes
  | .bare e => e.nodes

def nodesIn : List Stmt → List Expr
  | [] => []
  | s :: rest => s.nodes ++ nodesIn rest

def nodesInElse : Option (List Stmt) → List Expr
  | none => []
  | some body => nodesIn body

def nodesInStep : Option Stmt → List Expr
  | none => []
  | some s => s.nodes

end

attribute [simp] Expr.nodes Stmt.nodes

def Expr.children : Expr → List Expr
  | .literal .. | .variable .. | .receiver _ | .stray _ => []
  | .binary _ _ left right => [left, right]
  | .unary _ _ operand => [operand]
  | .call _ _ args => args
  | .invoke _ object _ args => object :: args
  | .member _ object _ => [object]
  | .create _ _ args => args

def Expr.parts (e : Expr) : List Expr :=
  e.children.flatMap Expr.nodes

theorem nodesOf_eq_flatMap (es : List Expr) : nodesOf es = es.flatMap Expr.nodes := by
  induction es
  case nil => rfl
  case cons e es ih => rw [nodesOf, ih, flatMap_cons]

theorem nodesOfFields_eq_flatMap (fs : List (Field Expr)) :
    nodesOfFields fs = fs.flatMap nodesOfField := by
  induction fs
  case nil => rfl
  case cons f fs ih => rw [nodesOfFields, ih, flatMap_cons]

theorem nodesIn_eq_flatMap (body : List Stmt) : nodesIn body = body.flatMap Stmt.nodes := by
  induction body
  case nil => rfl
  case cons s body ih => rw [nodesIn, ih, flatMap_cons]

theorem Expr.nodes_eq_parts {e : Expr} {id : Nat} (h : e.id? = some id) :
    e.nodes = e.parts ++ [e] := by
  cases e <;> simp [parts, children, nodesOf_eq_flatMap]
  case stray => cases h

-- Expressions have these numbers. All numbers in one of them are among these, in the same order.
structure Listed (nodes : List Expr) (ids : List Nat) : Prop where
  parts : ∀ p ∈ nodes, p.ids.Sublist ids
  ids   : nodes.map Expr.id? = ids.map some

namespace Listed

variable {as bs : List Expr} {is js : List Nat}

theorem nil : Listed [] [] :=
  ⟨by simp, rfl⟩

theorem mem {id : Nat} (h : Listed as is) (he : e ∈ as) (hid : e.id? = some id) : id ∈ is := by
  have hmem := mem_map_of_mem he (f := Expr.id?)
  rw [h.ids, hid] at hmem
  simpa using hmem

theorem append (ha : Listed as is) (hb : Listed bs js) : Listed (as ++ bs) (is ++ js) := by
  refine ⟨fun p hp => ?_, by rw [map_append, map_append, ha.ids, hb.ids]⟩
  cases mem_append.mp hp
  case inl hp => exact sublist_append_of_sublist_left (ha.parts p hp)
  case inr hp => exact sublist_append_of_sublist_right (hb.parts p hp)

theorem push {e : Expr} {id : Nat} (ha : Listed as is) (hid : e.id? = some id)
    (he : e.ids = is ++ [id]) : Listed (as ++ [e]) e.ids := by
  refine ⟨fun p hp => ?_, by simp [ha.ids, hid, he]⟩
  cases mem_append.mp hp
  case inl hp => exact he ▸ sublist_append_of_sublist_left (ha.parts p hp)
  case inr hp => exact mem_singleton.mp hp ▸ .refl _

end Listed

mutual

theorem Expr.listed (e : Expr) : Listed e.nodes e.ids := by
  cases e
  case literal | «variable» | receiver => exact .push .nil rfl rfl
  case binary m op left right => exact (left.listed.append right.listed).push rfl rfl
  case unary m op operand => exact operand.listed.push rfl rfl
  case call m name args => exact (listedOf args).push rfl rfl
  case invoke m object name args => exact (object.listed.append (listedOf args)).push rfl rfl
  case member m object name => exact object.listed.push rfl rfl
  case create m type args => exact (listedOf args).push rfl rfl
  case stray s => exact s.listed

theorem listedOf (es : List Expr) : Listed (nodesOf es) (idsOf es) := by
  cases es
  case nil => exact .nil
  case cons e es => exact e.listed.append (listedOf es)

theorem listedOfOption (e : Option Expr) : Listed (nodesOfOption e) (idsOfOption e) := by
  cases e
  case none => exact .nil
  case some e => exact e.listed

theorem listedOfField (f : Field Expr) : Listed (nodesOfField f) (idsOfField f) := by
  cases f
  case mk name type init isConst loc => exact listedOfOption init

theorem listedOfFields (fs : List (Field Expr)) : Listed (nodesOfFields fs) (idsOfFields fs) := by
  cases fs
  case nil => exact .nil
  case cons f fs => exact (listedOfField f).append (listedOfFields fs)

theorem Stmt.listed (s : Stmt) : Listed s.nodes s.ids := by
  cases s
  case classDef loc name fields methods => exact (listedOfFields fields).append (listedIn methods)
  case routine loc name params returns isStatic body => exact listedIn body
  case «variable» loc name type init => exact listedOfOption init
  case constant loc name type value => exact value.listed
  case block loc body => exact listedIn body
  case assign loc target op value => exact target.listed.append value.listed
  case result loc value => exact listedOfOption value
  case branch loc condition thenBody elseBody =>
    exact (condition.listed.append (listedIn thenBody)).append (listedInElse elseBody)
  case whileLoop loc condition body => exact condition.listed.append (listedIn body)
  case forLoop loc init condition update body =>
    exact (((listedInStep init).append (listedOfOption condition)).append
      (listedInStep update)).append (listedIn body)
  case breakLoop | continueLoop => exact .nil
  case evaluate loc e => exact e.listed
  case bare e => exact e.listed

theorem listedIn (body : List Stmt) : Listed (nodesIn body) (idsIn body) := by
  cases body
  case nil => exact .nil
  case cons s rest => exact s.listed.append (listedIn rest)

theorem listedInElse (body : Option (List Stmt)) : Listed (nodesInElse body) (idsInElse body) := by
  cases body
  case none => exact .nil
  case some body => exact listedIn body

theorem listedInStep (s : Option Stmt) : Listed (nodesInStep s) (idsInStep s) := by
  cases s
  case none => exact .nil
  case some s => exact s.listed

end

end Lumen
