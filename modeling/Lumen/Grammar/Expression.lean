import Lumen.Double.Reading
import Lumen.Grammar.Reply

namespace Lumen.Grammar

open Token (Kind)

abbrev Operators := List (Kind × BinaryOp)

def levels : List Operators := [
  [(.or, .or)],
  [(.and, .and)],
  [(.equal, .eq), (.notEqual, .ne)],
  [(.less, .lt), (.atMost, .le), (.greater, .gt), (.atLeast, .ge)],
  [(.plus, .add), (.minus, .sub)],
  [(.star, .mul), (.slash, .div), (.percent, .mod)]
]

theorem length_levels : levels.length = 6 :=
  rfl

def unaryOp? : Kind → Option UnaryOp
  | .minus => some .neg
  | .not => some .not
  | _ => none

-- A float may end in letters `f`, which are no part of its value.
def floatDigits (text : String) : List Char :=
  (text.toList.reverse.dropWhile fun c => c = 'f' || c = 'F').reverse

def literal? (t : Token) : Option (Except Cause Literal) :=
  match t.kind with
  | .integer => some <| match readInt64? t.text.toList with
    | some n => .ok (.int n)
    | none => .error (.integerOutOfRange t.text)
  | .float => some <| match Double.read? (floatDigits t.text) with
    | some x => .ok (.float x)
    | none => .error (.malformedFloat t.text)
  | .string => some (.ok (.string t.text))
  | .trueKw => some (.ok (.bool true))
  | .falseKw => some (.ok (.bool false))
  | .nullKw => some (.ok .null)
  | _ => none

mutual

def expression (s : State) : Reply Expr s.left :=
  (level levels s).orRewind
termination_by 16 * s.left + 12
decreasing_by simp only [length_levels]; omega

def level (ops : List Operators) (s : State) : Reply Expr s.left :=
  match ops with
  | [] => unary s
  | ops :: tighter => (level tighter s).extend fun left s₁ h₁ => operands ops tighter left s₁ h₁
termination_by 16 * s.left + 4 + ops.length

def operands (ops : Operators) (tighter : List Operators) (left : Expr) {n : Nat} (s : State)
    (h : s.left < n) : Reply Expr n :=
  match s.next with
  | .nothing => .done left s h
  | .token t s₁ h₁ =>
    match ops.lookup t.kind with
    | none => .done left s h
    | some op =>
      match level tighter s₁ with
      | .failed e s₂ h₂ => .failed e s₂ (by omega)
      | .done right s₂ h₂ =>
        operands ops tighter (.binary ⟨s₂.fresh, t.loc⟩ op left right) s₂.numbered
          (by simp only [State.left_numbered]; omega)
termination_by 16 * s.left + 4 + tighter.length
decreasing_by all_goals (try simp only [State.left_numbered]); omega

def unary (s : State) : Reply Expr s.left :=
  match s.next with
  | .nothing => power s
  | .token t s₁ h₁ =>
    match unaryOp? t.kind with
    | none => power s
    | some op => ((unary s₁).marked t.loc fun mark e => .unary mark op e).within (Nat.le_of_lt h₁)
termination_by 16 * s.left + 3

-- Powers group to the right, and their right operand may not have a sign.
def power (s : State) : Reply Expr s.left :=
  (chained s).extend fun left s₁ h₁ =>
    match s₁.next with
    | .nothing => .done left s₁ h₁
    | .token t s₂ h₂ =>
      if t.kind = .power then
        ((power s₂).marked t.loc fun mark right => .binary mark .pow left right).within (by omega)
      else .done left s₁ h₁
termination_by 16 * s.left + 2

def chained (s : State) : Reply Expr s.left :=
  (primary s).extend fun e s₁ h₁ => chain e s₁ h₁
termination_by 16 * s.left + 1

def chain (e : Expr) {n : Nat} (s : State) (h : s.left < n) : Reply Expr n :=
  match s.next with
  | .nothing => .done e s h
  | .token t s₁ h₁ =>
    if t.kind = .leftParen then
      match e with
      | .variable mark name =>
        match arguments s₁ with
        | .failed f s₂ h₂ => .failed f s₂ (by omega)
        | .done args s₂ h₂ =>
          chain (.call ⟨s₂.fresh, mark.loc⟩ name args) s₂.numbered
            (by simp only [State.left_numbered]; omega)
      | _ => (s.fail .notCallable).within (Nat.le_of_lt h)
    else if t.kind = .dot then
      match s₁.expect .identifier "after '.'" with
      | .failed f s₂ h₂ => .failed f s₂ (by omega)
      | .done name s₂ h₂ =>
        match s₂.accept? .leftParen with
        | none =>
          chain (.member ⟨s₂.fresh, t.loc⟩ e name.text) s₂.numbered
            (by simp only [State.left_numbered]; omega)
        | some ⟨s₃, h₃⟩ =>
          match arguments s₃ with
          | .failed f s₄ h₄ => .failed f s₄ (by omega)
          | .done args s₄ h₄ =>
            chain (.invoke ⟨s₄.fresh, t.loc⟩ e name.text args) s₄.numbered
              (by simp only [State.left_numbered]; omega)
    else .done e s h
termination_by 16 * s.left
decreasing_by all_goals (try simp only [State.left_numbered]); omega

def arguments (s : State) : Reply (List Expr) s.left :=
  match s.accept? .rightParen with
  | some ⟨s₁, h₁⟩ => .done [] s₁ h₁
  | none => (expression s).extend fun e s₁ h₁ => moreArguments [e] s₁ h₁
termination_by 16 * s.left + 13

-- Further arguments behind the given ones, the last of which comes first. A comma without an
-- expression behind it is left unread.
def moreArguments (args : List Expr) {n : Nat} (s : State) (h : s.left < n) :
    Reply (List Expr) n :=
  let close (s' : State) (h' : s'.left ≤ s.left) : Reply (List Expr) n :=
    ((s'.expect .rightParen "after arguments").map fun _ => args.reverse).within (by omega)
  match s.accept? .comma with
  | none => close s (Nat.le_refl _)
  | some ⟨s₁, h₁⟩ =>
    match expression s₁ with
    | .failed _ s₂ _ => close (s₂.rewind s.cursor) (Nat.le_refl _)
    | .done e s₂ h₂ => moreArguments (e :: args) s₂ (by omega)
termination_by 16 * s.left

def primary (s : State) : Reply Expr s.left :=
  match s.next with
  | .nothing => s.fail (.expectedExpression s.peek)
  | .token t s₁ h₁ =>
    match literal? t with
    | some (.ok value) => .done (.literal ⟨s₁.fresh, t.loc⟩ value) s₁.numbered h₁
    | some (.error cause) => s.fail cause
    | none =>
      match t.kind with
      | .thisKw => .done (.receiver ⟨s₁.fresh, t.loc⟩) s₁.numbered h₁
      | .identifier => .done (.variable ⟨s₁.fresh, t.loc⟩ t.text) s₁.numbered h₁
      | .newKw =>
        let created := s₁.typeName.bind fun type s₂ _ =>
          (s₂.expect .leftParen "to open argument list").bind fun _ s₃ _ =>
          (arguments s₃).marked t.loc fun mark args => .create mark type args
        (created.within (Nat.le_of_lt h₁)).after (s.failure (.expectedExpression t))
      | .leftParen =>
        let inner := (expression s₁).bind fun e s₂ _ =>
          (s₂.expect .rightParen "to close parenthesized expression").map fun _ => e
        (inner.within (Nat.le_of_lt h₁)).after (s.failure (.expectedExpression t))
      | _ => s.fail (.expectedExpression t)
termination_by 16 * s.left

end

end Lumen.Grammar
