import Lumen.Grammar.Expression
import Lumen.Grammar.Resume

namespace Lumen.Grammar

open Token (Kind)

def assignmentOp? : Kind → Option (Option BinaryOp)
  | .assign => some none
  | .plusAssign => some (some .add)
  | .minusAssign => some (some .sub)
  | .starAssign => some (some .mul)
  | .slashAssign => some (some .div)
  | .percentAssign => some (some .mod)
  | _ => none

def simple (s : State) : Reply Stmt s.left :=
  (expression s).extend fun target s₁ h₁ =>
    match s₁.next with
    | .nothing => .done (.evaluate s.peek.loc target) s₁ h₁
    | .token t s₂ h₂ =>
      match assignmentOp? t.kind with
      | none => .done (.evaluate s.peek.loc target) s₁ h₁
      | some op =>
        if target.isTarget then
          ((expression s₂).map fun value => .assign s.peek.loc target op value).within
            (State.left_le_behind h₁ h₂)
        else (s₁.fail (.invalidTarget t)).within (State.left_le h₁)

def initializer (s : State) {n : Nat} (h : s.left < n) : Reply (Option Expr) n :=
  match s.accept? .assign with
  | none => .done none s h
  | some ⟨s₁, h₁⟩ => ((expression s₁).map some).within (State.left_le_of_lt_bound h h₁)

def variableHead (s : State) : Reply Stmt s.left :=
  match s.accept? .varKw with
  | some ⟨s₁, h₁⟩ =>
    let head := (s₁.expect .identifier "after 'var'").bind fun name s₂ _ =>
      (s₂.expect .assign "after inferred variable name").bind fun _ s₃ _ =>
      (expression s₃).map fun init => Stmt.variable s.peek.loc name.text none (some init)
    head.within (State.left_le h₁)
  | none =>
    s.typeName.bind fun type s₁ _ =>
      (s₁.expect .identifier "in variable declaration").extend fun name s₂ h₂ =>
      (initializer s₂ h₂).map fun init => .variable s.peek.loc name.text (some type) init

def variableDeclaration (s : State) : Reply Stmt s.left :=
  (variableHead s).bind fun declaration s₁ _ =>
    (s₁.semicolon "after variable declaration").map fun _ => declaration

def constantDeclaration (loc : Location) (s : State) : Reply Stmt s.left :=
  s.typeName.bind fun type s₁ _ =>
    (s₁.expect .identifier "in constant declaration").bind fun name s₂ _ =>
    match s₂.accept? .assign with
    | none => .failed ⟨.uninitializedConstant name.text, name.loc, none⟩ s₂ s₂.left_refl
    | some ⟨s₃, h₃⟩ =>
      let tail := (expression s₃).bind fun value s₄ _ =>
        (s₄.semicolon "after constant declaration").map fun _ =>
        Stmt.constant loc name.text type value
      tail.within (State.left_le h₃)

abbrev Header := Option Stmt × Option Expr × Option Stmt

def upToSemicolon {α : Type} (rule : (s : State) → Reply α s.left) (context : String)
    (s : State) : Reply (Option α) s.left :=
  if s.peek.kind = .semicolon then (s.semicolon context).map fun _ => none
  else (rule s).bind fun a s₁ _ => (s₁.semicolon context).map fun _ => some a

def headerStart (s : State) : Reply Stmt s.left :=
  if s.peek.kind = .varKw || s.cursor.opensDeclaration then variableHead s else simple s

def bareHeader (s : State) : Reply Header s.left :=
  (upToSemicolon headerStart "after loop initializer" s).bind fun init s₁ _ =>
    (upToSemicolon expression "after loop condition" s₁).extend fun condition s₂ h₂ =>
    if s₂.peek.kind = .rightParen || s₂.peek.kind = .leftBrace then
      .done (init, condition, none) s₂ h₂
    else
      ((simple s₂).map fun update => (init, condition, some update)).within (State.left_le h₂)

def parenthesizedHeader (s : State) : Reply Header s.left :=
  (s.expect .leftParen "to open loop header").bind fun _ s₁ _ =>
    (bareHeader s₁).bind fun header s₂ _ =>
    (s₂.expect .rightParen "to close loop header").map fun _ => header

def header (s : State) : Reply Header s.left :=
  match parenthesizedHeader s with
  | .done header s₁ h₁ => .done header s₁ h₁
  | .failed f s₁ _ => Reply.orRewind s ((bareHeader (s₁.rewind s.cursor)).after f)

def resultValue (loc : Location) (s : State) : Reply Stmt s.left :=
  (upToSemicolon expression "after return value" s).map fun value => .result loc value

def lone (statement : Stmt) (context : String) (s : State) : Reply Stmt s.left :=
  (s.semicolon context).map fun _ => statement

def simpleStatement (s : State) : Reply Stmt s.left :=
  (simple s).bind fun statement s₁ _ =>
    (s₁.semicolon "after expression").map fun _ => statement

def State.close (s : State) (unclosed : Token → Cause) : { s' : State // s'.left ≤ s.left } :=
  match s.accept? .rightBrace with
  | some ⟨s₁, h₁⟩ => ⟨s₁, State.left_le h₁⟩
  | none => ⟨s.report ((s.failure (unclosed s.peek)).diagnostic none), s.left_refl⟩

mutual

def statement (s : State) : Reply Stmt s.left :=
  match s.next with
  | .nothing => simpleStatement s
  | .token t s₁ h₁ =>
    match t.kind with
    | .leftBrace =>
      let (body, ⟨s₂, h₂⟩) := block s₁
      .done (.block t.loc body) s₂ (State.left_lt_trans h₁ h₂)
    | .ifKw => (branch t.loc s₁).within (State.left_le h₁)
    | .whileKw => (whileLoop t.loc s₁).within (State.left_le h₁)
    | .forKw => (forLoop t.loc s₁).within (State.left_le h₁)
    | .returnKw => (resultValue t.loc s₁).within (State.left_le h₁)
    | .breakKw => (lone (.breakLoop t.loc) "after 'break'" s₁).within (State.left_le h₁)
    | .continueKw => (lone (.continueLoop t.loc) "after 'continue'" s₁).within (State.left_le h₁)
    | .constKw => (constantDeclaration t.loc s₁).within (State.left_le h₁)
    | .varKw => variableDeclaration s
    | .classKw => s.fail .misplacedClass
    | _ => if s.cursor.opensDeclaration then variableDeclaration s else simpleStatement s
termination_by 4 * s.left + 1

def body (s : State) : Reply (List Stmt) s.left :=
  match s.accept? .leftBrace with
  | none => (statement s).map fun statement => [statement]
  | some ⟨s₁, h₁⟩ =>
    let (body, ⟨s₂, h₂⟩) := block s₁
    .done body s₂ (State.left_lt_trans h₁ h₂)
termination_by 4 * s.left + 2

def branch (loc : Location) (s : State) : Reply Stmt s.left :=
  (expression s).bind fun condition s₁ _ =>
    (body s₁).extend fun thenBody s₂ h₂ =>
    match s₂.accept? .elseKw with
    | none => .done (.branch loc condition thenBody none) s₂ h₂
    | some ⟨s₃, h₃⟩ =>
      ((body s₃).map fun elseBody => .branch loc condition thenBody (some elseBody)).within
        (State.left_le_behind h₂ h₃)
termination_by 4 * s.left

def whileLoop (loc : Location) (s : State) : Reply Stmt s.left :=
  (expression s).bind fun condition s₁ _ =>
    (body s₁).map fun body => .whileLoop loc condition body
termination_by 4 * s.left

def forLoop (loc : Location) (s : State) : Reply Stmt s.left :=
  (header s).bind fun (init, condition, update) s₁ _ =>
    (body s₁).map fun body => .forLoop loc init condition update body
termination_by 4 * s.left

def block (s : State) : List Stmt × { s' : State // s'.left ≤ s.left } :=
  let (body, ⟨s₁, h₁⟩) := statements [] s s.left_refl
  let ⟨s₂, h₂⟩ := s₁.close .unclosedBlock
  (body, ⟨s₂, State.left_le_trans h₁ h₂⟩)
termination_by 4 * s.left + 3

def statements (done : List Stmt) {n : Nat} (s : State) (h : s.left ≤ n) :
    List Stmt × { s' : State // s'.left ≤ n } :=
  match s.next with
  | .nothing => (done.reverse, ⟨s, h⟩)
  | .token t _ h₁ =>
    if t.kind = .rightBrace then (done.reverse, ⟨s, h⟩)
    else match statement s with
      | .done statement s₂ h₂ => statements (statement :: done) s₂ (State.left_le_bound h h₂)
      | .failed failure s₂ h₂ =>
        let ⟨s₃, h₃⟩ := s.goOn failure s₂ h₂ (State.left_pos h₁)
        statements done s₃ (State.left_le_bound h h₃)
termination_by 4 * s.left + 2

end

end Lumen.Grammar
