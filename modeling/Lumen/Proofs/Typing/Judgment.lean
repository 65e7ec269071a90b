import Lumen.Code.Body
import Lumen.Proofs.Typing.Inference

namespace Lumen

open Typing List

section Typed

variable (c : Checked) (env : Environment)

mutual

def Expr.Typed : Expr → Prop
  | .literal m value => c.typeAt m.id = literalType value
  | .variable m name => env.variableType name = .ok (c.typeAt m.id)
  | .receiver m => env.receiverType = .ok (c.typeAt m.id)
  | .binary m op left right =>
    left.Typed ∧ right.Typed ∧ op.result? (c.typeOf left) (c.typeOf right) = some (c.typeAt m.id)
  | .unary m op operand => operand.Typed ∧ op.result? (c.typeOf operand) = some (c.typeAt m.id)
  | .call m name args =>
    TypedArgs args ∧ ∃ signature, env.routine name = .ok signature ∧
      args.length = signature.params.length ∧ c.typeAt m.id = signature.returns
  | .invoke m object name args =>
    TypedArgs args ∧ ∃ className signature, c.typeOf object = .object className ∧
      args.length = signature.params.length ∧ c.typeAt m.id = signature.returns ∧
      -- A class is named by itself and has no type, or the object has one.
      ((∃ mark, env.namedClass? object = some (mark, className) ∧
          env.staticMethod className name = .ok signature) ∨
        (env.namedClass? object = none ∧ object.Typed ∧
          env.method className name = .ok signature))
  | .member m object name =>
    object.Typed ∧ ∃ className symbol, c.typeOf object = .object className ∧
      env.member? className name = some symbol ∧ symbol.kind = .field ∧
      c.typeAt m.id = symbol.type
  | .create m type args =>
    TypedArgs args ∧ ∃ className, type = .named className ∧ env.isClass className ∧
      c.typeAt m.id = .object className
  | .stray _ => False

def TypedArgs : List Expr → Prop
  | [] => True
  | e :: es => e.Typed ∧ TypedArgs es

end

end Typed

theorem BinaryOp.result?_cases {op : BinaryOp} (h : op.result? left right = some type) :
    type = .int ∨ type = .float ∨ type = .string ∨ type = .bool := by
  rw [BinaryOp.result?.eq_def] at h
  grind

theorem UnaryOp.result?_cases {op : UnaryOp} (h : op.result? operand = some type) :
    type = .int ∨ type = .float ∨ type = .bool := by
  cases op <;> cases operand <;> simp_all [UnaryOp.result?, Ty.isNumeric]

namespace Typing

-- The rules, where nothing is wrong.
section Rules

theorem result?_of_binaryType (h : binaryType op left right = .ok type)
    (hn : type.isError = false) :
    op.result? left right = some type := by
  rw [binaryType] at h
  split at h
  case isTrue =>
    cases h
    cases hn
  case isFalse =>
    split at h
    case h_1 heq =>
      cases h
      exact heq
    case h_2 => cases h

theorem result?_of_unaryType (h : unaryType op operand = .ok type) (hn : type.isError = false) :
    op.result? operand = some type := by
  rw [unaryType] at h
  split at h
  case isTrue =>
    cases h
    cases hn
  case isFalse =>
    split at h
    case h_1 heq =>
      cases h
      exact heq
    case h_2 => cases h

theorem field_of_memberType {env : Environment} (h : env.memberType object name = .ok type)
    (hn : type.isError = false) :
    ∃ className symbol, object = .object className ∧ env.member? className name = some symbol ∧
      symbol.kind = .field ∧ type = symbol.type := by
  rw [Environment.memberType.eq_def] at h
  split at h
  case h_1 =>
    cases h
    cases hn
  case h_2 className =>
    split at h
    case h_1 => cases h
    case h_2 symbol hs =>
      split at h
      case isTrue hk =>
        cases h
        exact ⟨className, symbol, rfl, hs, hk, rfl⟩
      case isFalse => cases h
  case h_3 => cases h

theorem class_of_createdType {env : Environment} {written : TypeName}
    (h : env.createdType written = .ok type) :
    ∃ className, written = .named className ∧ env.isClass className ∧
      type = .object className := by
  cases written <;> try cases h
  case named className =>
    rw [Environment.createdType, writtenType] at h
    split at h
    case isTrue hc =>
      cases h
      exact ⟨className, rfl, hc, rfl⟩
    case isFalse => cases h

theorem length_of_argumentProblems (h : argumentProblems routine signature args loc = []) :
    args.length = signature.params.length := by
  rw [argumentProblems] at h
  split at h
  case isTrue => cases h
  case isFalse hlen => simpa using hlen

theorem length_argumentTypes (env : Environment) (args : List Expr) :
    (argumentTypes args (inferAll env args)).length = args.length := by
  simp [argumentTypes, inferAll_eq_map]

end Rules
end Typing

namespace Checked

variable {W : String → Prop} {c : Checked} {env : Environment}

theorem typeOf_ne_error (h : c.isFaulty e = false) : c.typeOf e ≠ .error := by
  intro he
  have herror := Ty.isError_iff.mpr he
  cases e <;> simp_all [isFaulty, typeOf, Expr.id?, Ty.isError]

mutual

theorem Keeps.typed (e : Expr) (hf : e.Formed W) (hk : c.Keeps (infer env e))
    (hn : c.isFaulty e = false) : e.Typed c env := by
  cases e <;> rw [Expr.Typed] <;> rw [infer] at hk <;>
    simp only [isFaulty, Bool.or_eq_false_iff] at hn
  case literal m value =>
    obtain ⟨_, type, hrule, htype⟩ := keeps_ofRule.mp hk
    cases hrule
    exact typeAt_of_types htype
  case «variable» m name =>
    obtain ⟨_, type, hrule, htype⟩ := keeps_ofRule.mp hk
    rw [hrule, typeAt_of_types htype]
  case receiver m =>
    obtain ⟨_, type, hrule, htype⟩ := keeps_ofRule.mp hk
    rw [hrule, typeAt_of_types htype]
  case binary m op left right =>
    obtain ⟨hparts, type, hrule, htype⟩ := keeps_ofRule.mp hk
    have hleft := hparts _ mem_cons_self
    have hright := hparts _ (mem_cons_of_mem _ mem_cons_self)
    refine ⟨hleft.typed left hf.1 hn.1.2, hright.typed right hf.2 hn.2, ?_⟩
    rw [hleft.typeOf_eq hf.1, hright.typeOf_eq hf.2, typeAt_of_types htype]
    exact result?_of_binaryType hrule (typeAt_of_types htype ▸ hn.1.1)
  case unary m op operand =>
    obtain ⟨hparts, type, hrule, htype⟩ := keeps_ofRule.mp hk
    have hoperand := hparts _ mem_cons_self
    refine ⟨hoperand.typed operand hf hn.2, ?_⟩
    rw [hoperand.typeOf_eq hf, typeAt_of_types htype]
    exact result?_of_unaryType hrule (typeAt_of_types htype ▸ hn.1)
  case member m object name =>
    obtain ⟨hparts, type, hrule, htype⟩ := keeps_ofRule.mp hk
    have hobject := hparts _ mem_cons_self
    refine ⟨hobject.typed object hf.1 hn.2, ?_⟩
    rw [hobject.typeOf_eq hf.1, typeAt_of_types htype]
    exact field_of_memberType hrule (typeAt_of_types htype ▸ hn.1)
  case create m type args =>
    obtain ⟨hparts, created, hrule, htype⟩ := keeps_ofRule.mp hk
    refine ⟨Keeps.typedArgs args hf.2 hparts hn.2, ?_⟩
    rw [typeAt_of_types htype]
    exact class_of_createdType hrule
  case call m name args =>
    obtain ⟨hparts, signature, hrule, hargs, htype⟩ := keeps_ofCall.mp hk
    refine ⟨Keeps.typedArgs args hf.2 hparts hn.2, signature, hrule, ?_, typeAt_of_types htype⟩
    rw [← length_of_argumentProblems hargs, length_argumentTypes]
  case invoke m object name args =>
    split at hk
    case h_1 mark className hnamed =>
      obtain ⟨hparts, signature, hrule, hargs, htype⟩ := keeps_ofCall.mp hk
      obtain ⟨hobject, hfound⟩ := forall_mem_cons.mp hparts
      obtain ⟨heq, _⟩ := Environment.namedClass?_some hnamed
      have hclass : c.typeOf object = .object className := by
        rw [heq]
        exact typeAt_of_types (keeps_node.mp hobject).2.2
      refine ⟨Keeps.typedArgs args hf.2.2 hfound hn.2, className, signature, hclass, ?_,
        typeAt_of_types htype, .inl ⟨mark, hnamed, hrule⟩⟩
      rw [← length_of_argumentProblems hargs, length_argumentTypes]
    case h_2 hnamed =>
      dsimp only at hk
      split at hk
      case h_1 =>
        have htype := (keeps_node.mp hk).2.2
        rw [typeAt_of_types htype] at hn
        cases hn.1.1
      case h_2 className hclass =>
        obtain ⟨hparts, signature, hrule, hargs, htype⟩ := keeps_ofCall.mp hk
        obtain ⟨hobject, hfound⟩ := forall_mem_cons.mp hparts
        refine ⟨Keeps.typedArgs args hf.2.2 hfound hn.2, className, signature,
          (hobject.typeOf_eq hf.1).trans hclass, ?_, typeAt_of_types htype,
          .inr ⟨hnamed, hobject.typed object hf.1 hn.1.2, hrule⟩⟩
        rw [← length_of_argumentProblems hargs, length_argumentTypes]
      case h_3 =>
        obtain ⟨_, _, hrule, _⟩ := keeps_ofRule.mp hk
        cases hrule
  case stray => cases hn

theorem Keeps.typedArgs (es : List Expr) (hf : FormedArgs W es)
    (hk : ∀ f ∈ inferAll env es, c.Keeps f) (hn : c.anyFaulty es = false) :
    TypedArgs c env es := by
  cases es
  case nil => trivial
  case cons e es =>
    rw [inferAll] at hk
    obtain ⟨hke, hkr⟩ := forall_mem_cons.mp hk
    simp only [anyFaulty, Bool.or_eq_false_iff] at hn
    exact ⟨hke.typed e hf.1 hn.1, Keeps.typedArgs es hf.2 hkr hn.2⟩

end

end Checked
end Lumen
