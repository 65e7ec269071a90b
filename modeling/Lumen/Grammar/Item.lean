import Lumen.Grammar.Statement

namespace Lumen.Grammar

open Token (Kind)

def parameter (s : State) : Reply Param s.left :=
  s.typeName.bind fun type s₁ _ =>
    (s₁.expect .identifier "for parameter name").map fun name => ⟨name.text, type, s.peek.loc⟩

def parameters (done : List Param) (s : State) : Reply (List Param) s.left :=
  (parameter s).extend fun param s₁ h₁ =>
    match s₁.accept? .comma with
    | none => .done (param :: done).reverse s₁ h₁
    | some ⟨s₂, h₂⟩ => (parameters (param :: done) s₂).within (State.left_le_behind h₁ h₂)
termination_by s.left

def routineRest (s : State) : Reply (List Param × List Stmt) s.left :=
  (s.expect .leftParen "after routine name").bind fun _ s₁ _ =>
    let body (params : List Param) (s : State) : Reply (List Param × List Stmt) s.left :=
      (s.expect .rightParen "after parameters").bind fun _ s₃ _ =>
        (s₃.expect .leftBrace "for routine body").extend fun _ s₄ h₄ =>
        let (body, ⟨s₅, h₅⟩) := block s₄
        .done (params, body) s₅ (State.left_lt_trans h₄ h₅)
    if s₁.peek.kind = .rightParen then body [] s₁
    else (parameters [] s₁).bind fun params s₂ _ => body params s₂

def routine (loc : Location) (isStatic : Bool) (s : State) : Reply Stmt s.left :=
  s.typeName.bind fun returns s₁ _ =>
    (s₁.expect .identifier "for routine name").bind fun name s₂ _ =>
    (routineRest s₂).map fun (params, body) => .routine loc name.text params returns isStatic body

inductive Member where
  | field (field : Field Expr)
  | method (method : Stmt)

def fieldRest (isConst : Bool) (s : State) : Reply (Option Expr) s.left :=
  let init : Reply (Option Expr) s.left :=
    (s.expect .assign "in constant field").bind fun _ s₁ _ => (expression s₁).map some
  let close (value : Option Expr) (s : State) : Reply (Option Expr) s.left :=
    (s.semicolon "after field declaration").map fun _ => value
  if isConst || s.peek.kind = .assign then init.bind fun value s₁ _ => close value s₁
  else close none s

def memberRest (loc : Location) (isConst : Bool) (s : State) : Reply Member s.left :=
  s.typeName.bind fun type s₁ _ =>
    (s₁.expect .identifier "in class member").bind fun name s₂ _ =>
    if !isConst && s₂.peek.kind = .leftParen then
      (routineRest s₂).map fun (params, body) =>
        .method (.routine loc name.text params type false body)
    else
      (fieldRest isConst s₂).map fun init => .field ⟨name.text, type, init, isConst, loc⟩

def member (s : State) : Reply Member s.left :=
  let loc := s.peek.loc
  match s.accept? .staticKw with
  | some ⟨s₁, h₁⟩ => ((routine loc true s₁).map .method).within (State.left_le h₁)
  | none =>
    match s.accept? .constKw with
    | some ⟨s₁, h₁⟩ => (memberRest loc true s₁).within (State.left_le h₁)
    | none => memberRest loc false s

def members (done : List Member) {n : Nat} (s : State) (h : s.left ≤ n) :
    List Member × { s' : State // s'.left ≤ n } :=
  match s.next with
  | .nothing => (done.reverse, ⟨s, h⟩)
  | .token t _ h₁ =>
    if t.kind = .rightBrace then (done.reverse, ⟨s, h⟩)
    else match member s with
      | .done member s₂ h₂ => members (member :: done) s₂ (State.left_le_bound h h₂)
      | .failed failure s₂ h₂ =>
        let ⟨s₃, h₃⟩ := s.goOn failure s₂ h₂ (State.left_pos h₁)
        members done s₃ (State.left_le_bound h h₃)
termination_by s.left

def Member.field? : Member → Option (Field Expr)
  | field f => some f
  | method _ => none

def Member.method? : Member → Option Stmt
  | field _ => none
  | method m => some m

def classDefinition (loc : Location) (s : State) : Reply Stmt s.left :=
  (s.expect .identifier "after 'class'").bind fun name s₁ _ =>
    (s₁.expect .leftBrace "after class name").extend fun _ s₂ h₂ =>
    let (members, ⟨s₃, h₃⟩) := members [] s₂ s₂.left_refl
    let definition :=
      Stmt.classDef loc name.text (members.filterMap (·.field?)) (members.filterMap (·.method?))
    let ⟨s₄, h₄⟩ := s₃.close (.unclosedClass name.text)
    .done definition s₄ (State.left_lt_trans₂ h₂ h₃ h₄)

def item (s : State) : Reply Stmt s.left :=
  match s.next with
  | .nothing => statement s
  | .token t s₁ h₁ =>
    match t.kind with
    | .classKw => (classDefinition t.loc s₁).within (State.left_le h₁)
    | .staticKw => (routine t.loc true s₁).within (State.left_le h₁)
    | _ => if s.cursor.opensRoutine then routine t.loc true s else statement s

def items (done : Items) (s : State) : Items × State :=
  match s.next with
  | .nothing => (done.reverse, s)
  | .token _ _ h₁ =>
    match item s with
    | .done item s₂ _ => items (item :: done) s₂
    | .failed failure s₂ h₂ =>
      let ⟨s₃, _⟩ := s.goOn failure s₂ h₂ (State.left_pos h₁)
      items done s₃
termination_by s.left

end Lumen.Grammar
