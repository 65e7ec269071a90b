import Lumen.Checked
import Lumen.Proofs.Tree

namespace Lumen

open List

@[simp] theorem Ty.isError_iff {t : Ty} : t.isError = true ↔ t = .error := by
  cases t <;> simp [isError]

variable {parts : List Finding} {args : List (Ty × Location)} {rule : Except Cause Signature}
  {mark : Mark} {routine : String} {e : Expr} {type : Ty}

namespace Typing

attribute [simp] infer inferAll

theorem inferAll_eq_map (env : Environment) (es : List Expr) :
    inferAll env es = es.map (infer env) := by
  induction es
  case nil => rfl
  case cons e es ih => simp [ih]

namespace Finding

@[simp] theorem type_node (mark : Mark) (parts : List Finding) (own : List Problem) (type : Ty) :
    (node mark parts own type).type = type :=
  rfl

def ids (f : Finding) : List Nat :=
  f.notes.map Prod.fst

@[simp] theorem ids_node (mark : Mark) (parts : List Finding) (own : List Problem) (type : Ty) :
    (node mark parts own type).ids = parts.flatMap ids ++ [mark.id] := by
  simp only [ids, node, map_append, map_flatMap]
  rfl

@[simp] theorem ids_ofRule (mark : Mark) (parts : List Finding) (rule : Except Cause Ty) :
    (ofRule mark parts rule).ids = parts.flatMap ids ++ [mark.id] := by
  cases rule <;> simp [ofRule]

@[simp] theorem ids_ofCall (mark : Mark) (parts : List Finding) (routine : String)
    (args : List (Ty × Location)) (rule : Except Cause Signature) :
    (ofCall mark parts routine args rule).ids = parts.flatMap ids ++ [mark.id] := by
  cases rule <;> simp [ofCall]

end Finding

theorem Environment.namedClass?_some {env : Environment}
    (h : env.namedClass? e = some (mark, name)) :
    e = .variable mark name ∧ (env.symbol? name).any Symbol.isClass := by
  cases e <;> simp only [namedClass?] at h <;> grind

section

variable (env : Environment)

mutual

theorem infer_ids {W : String → Prop} (e : Expr) (h : e.Formed W) :
    (infer env e).ids = e.ids := by
  cases e <;> rw [Expr.Formed] at h
  case stray => exact h.elim
  case literal | «variable» | receiver => simp [Expr.ids]
  case binary m op left right =>
    simp [Expr.ids, infer_ids left h.1, infer_ids right h.2]
  case unary m op operand => simp [Expr.ids, infer_ids operand h]
  case call m name args => simp [Expr.ids, inferAll_ids args h.2]
  case member m object name => simp [Expr.ids, infer_ids object h.1]
  case create m type args => simp [Expr.ids, inferAll_ids args h.2]
  case invoke m object name args =>
    have hargs := inferAll_ids args h.2.2
    rw [infer, Expr.ids]
    split
    case h_1 objectMark className hc =>
      obtain ⟨hobject, _⟩ := Environment.namedClass?_some hc
      simp [hobject, Expr.ids, hargs]
    case h_2 =>
      have hobject := infer_ids object h.1
      dsimp only
      split <;> simp [hobject, hargs]

theorem inferAll_ids {W : String → Prop} (es : List Expr)
    (h : FormedArgs W es) : (inferAll env es).flatMap Finding.ids = idsOf es := by
  cases es
  case nil => rfl
  case cons e es =>
    rw [FormedArgs] at h
    simp [inferAll, idsOf, infer_ids e h.1, inferAll_ids es h.2]

end

end

variable {cause : Cause}

theorem severity_eq_error (h : cause.kind ≠ .missingReturn) : cause.severity = .error := by
  cases cause <;> simp_all [Cause.kind, Cause.severity]

-- The causes that lie in a statement or a definition itself, so that no expression gives rise to
-- them.
def Cause.ofStatement : Cause → Bool
  | .duplicate .. | .voidParameter _ | .voidVariable _ | .noTypeFor .. | .nestedDefinition
  | .condition _ | .outsideLoop _ | .constantTarget _ | .assignOperands .. | .stored ..
  | .noResult .. | .unexpectedResult _ | .wrongResult .. | .missingReturn .. => true
  | _ => false

attribute [simp] Cause.ofStatement

theorem Cause.kind_ne_missingReturn (h : cause.ofStatement = false) :
    cause.kind ≠ .missingReturn := by
  cases cause <;> simp_all [Cause.kind]

theorem Cause.kind_ne_constantAssignment (h : cause.ofStatement = false) :
    cause.kind ≠ .constantAssignment := by
  cases cause <;> simp_all [Cause.kind]

theorem misfits_ofStatement :
    ∀ p ∈ misfits routine index params args, p.cause.ofStatement = false := by
  fun_induction misfits routine index params args
  case case1 ih => exact ih
  case case2 ih => exact forall_mem_cons.mpr ⟨rfl, ih⟩
  case case3 => simp

def Cause.isUnknown : Cause → Bool
  | .undefinedClass _ => true
  | _ => false

attribute [local simp] Cause.isUnknown

def Strict {α : Type} (rule : Except Cause α) : Prop :=
  ∀ cause, rule = .error cause → cause.ofStatement = false

@[simp] theorem strict_ok {α : Type} (a : α) : Strict (.ok a) := by
  simp [Strict]

@[simp] theorem strict_error {α : Type} (cause : Cause) :
    Strict (.error cause : Except Cause α) ↔ cause.ofStatement = false := by
  simp [Strict]

-- A rule that looks up no class by its name.
def Plain {α : Type} (rule : Except Cause α) : Prop :=
  ∀ cause, rule = .error cause → cause.ofStatement = false ∧ cause.isUnknown = false

@[simp] theorem plain_ok {α : Type} (a : α) : Plain (.ok a) := by
  simp [Plain]

@[simp] theorem plain_error {α : Type} (cause : Cause) :
    Plain (.error cause : Except Cause α) ↔
      cause.ofStatement = false ∧ cause.isUnknown = false := by
  simp [Plain]

theorem Plain.strict {α : Type} {rule : Except Cause α} (h : Plain rule) : Strict rule :=
  fun cause hc => (h cause hc).1

theorem writtenType_strict (isClass : String → Bool) (type : TypeName) :
    Strict (writtenType isClass type) := by
  unfold writtenType
  split
  · split <;> simp
  · simp

namespace Environment

variable (env : Environment)

theorem variableType_plain (name : String) : Plain (env.variableType name) := by
  unfold variableType
  split
  · simp
  · split <;> (try split) <;> simp

theorem receiverType_plain : Plain env.receiverType := by
  unfold receiverType
  split <;> simp

theorem memberType_plain (object : Ty) (name : String) : Plain (env.memberType object name) := by
  unfold memberType
  split
  · simp
  · split
    · simp
    · split <;> simp
  · simp

theorem createdType_strict (type : TypeName) : Strict (env.createdType type) := by
  unfold createdType
  split
  · exact writtenType_strict _ _
  · simp

theorem routine_plain (name : String) : Plain (env.routine name) := by
  unfold routine
  split
  · simp
  · split <;> (try split) <;> simp

theorem method_plain (className name : String) : Plain (env.method className name) := by
  unfold method
  split
  · simp
  · split <;> simp

theorem staticMethod_plain (className name : String) :
    Plain (env.staticMethod className name) := by
  unfold staticMethod
  split
  · split <;> simp
  · rename_i cause h
    exact (plain_error cause).mpr (env.method_plain className name cause h)

end Environment

theorem binaryType_plain (op : BinaryOp) (left right : Ty) :
    Plain (binaryType op left right) := by
  unfold binaryType
  split
  · simp
  · split <;> simp

theorem unaryType_plain (op : UnaryOp) (operand : Ty) : Plain (unaryType op operand) := by
  unfold unaryType
  split
  · simp
  · split <;> simp

def Finding.Severe (f : Finding) : Prop :=
  ∀ p ∈ f.problems, p.cause.ofStatement = false

namespace Finding.Severe

section

variable (hp : ∀ f ∈ parts, f.Severe)

include hp

theorem node (ho : ∀ p ∈ own, p.cause.ofStatement = false) :
    (Finding.node mark parts own type).Severe := by
  intro p h
  rcases mem_append.mp h with h | h
  · obtain ⟨f, hf, hpf⟩ := mem_flatMap.mp h
    exact hp f hf p hpf
  · exact ho p h

theorem ofRule {rule : Except Cause Ty} (hr : Strict rule) :
    (Finding.ofRule mark parts rule).Severe := by
  cases rule
  case ok type => exact node hp (by simp)
  case error cause => exact node hp (by simpa using hr cause rfl)

theorem ofCall (hr : Strict rule) :
    (Finding.ofCall mark parts routine args rule).Severe := by
  cases rule
  case error cause => exact node hp (by simpa using hr cause rfl)
  case ok signature =>
    refine node hp fun p h => ?_
    unfold argumentProblems at h
    split at h
    · simp_all
    · split at h
      · simp at h
      · exact misfits_ofStatement p h

end

end Finding.Severe

section

variable (env : Environment)

mutual

theorem infer_severe (e : Expr) : (infer env e).Severe := by
  cases e <;> rw [infer]
  case literal => exact .ofRule (by simp) (strict_ok _)
  case «variable» m name => exact .ofRule (by simp) (env.variableType_plain name).strict
  case receiver => exact .ofRule (by simp) env.receiverType_plain.strict
  case binary m op left right =>
    refine .ofRule ?_ (binaryType_plain op _ _).strict
    simp [infer_severe left, infer_severe right]
  case unary m op operand =>
    refine .ofRule ?_ (unaryType_plain op _).strict
    simp [infer_severe operand]
  case member m object name =>
    refine .ofRule ?_ (env.memberType_plain _ name).strict
    simp [infer_severe object]
  case create m type args => exact .ofRule (inferAll_severe args) (env.createdType_strict type)
  case call m name args => exact .ofCall (inferAll_severe args) (env.routine_plain name).strict
  case invoke m object name args =>
    have hargs := inferAll_severe args
    have hobject := infer_severe object
    split
    case h_1 objectMark className hc =>
      refine .ofCall (forall_mem_cons.mpr ⟨?_, hargs⟩)
        (env.staticMethod_plain className name).strict
      exact .node (by simp) (by simp)
    case h_2 =>
      have hall := forall_mem_cons.mpr ⟨hobject, hargs⟩
      dsimp only
      split
      · exact .node hall (by simp)
      · exact .ofCall hall (env.method_plain _ name).strict
      · exact .ofRule hall (by simp)
  case stray s => simp [Finding.Severe]

theorem inferAll_severe (es : List Expr) :
    ∀ f ∈ inferAll env es, f.Severe := by
  cases es
  case nil => simp [inferAll]
  case cons e es =>
    rw [inferAll]
    exact forall_mem_cons.mpr ⟨infer_severe e, inferAll_severe es⟩

end

end

theorem inferInitial_severe (env : Environment) (declared : Option TypeName) (init : Expr) :
    (inferInitial env declared init).Severe := by
  rw [inferInitial.eq_def]
  split
  · split
    · exact .node (inferAll_severe env _) (by simp)
    · exact infer_severe env _
  · exact infer_severe env _

end Typing

namespace Checked

open Typing

variable {c : Checked}

def Keeps (c : Checked) (f : Finding) : Prop :=
  f.problems = [] ∧ ∀ n ∈ f.notes, c.types[n.1]? = some n.2

theorem keeps_node : c.Keeps (.node mark parts own type) ↔
      (∀ f ∈ parts, c.Keeps f) ∧ own = [] ∧ c.types[mark.id]? = some type := by
  simp only [Keeps, Finding.node, append_eq_nil_iff, flatMap_eq_nil_iff,
    mem_append, mem_flatMap, mem_singleton]
  constructor
  · rintro ⟨⟨hparts, hown⟩, hnotes⟩
    exact ⟨fun f hf => ⟨hparts f hf, fun n hn => hnotes n (.inl ⟨f, hf, hn⟩)⟩, hown,
      hnotes _ (.inr rfl)⟩
  · rintro ⟨hparts, hown, hmark⟩
    refine ⟨⟨fun f hf => (hparts f hf).1, hown⟩, fun n hn => ?_⟩
    rcases hn with ⟨f, hf, hn⟩ | rfl
    · exact (hparts f hf).2 n hn
    · exact hmark

theorem keeps_ofRule {rule : Except Cause Ty} :
    c.Keeps (.ofRule mark parts rule) ↔
      (∀ f ∈ parts, c.Keeps f) ∧ ∃ type, rule = .ok type ∧ c.types[mark.id]? = some type := by
  cases rule <;> simp [Finding.ofRule, keeps_node]

theorem keeps_ofCall :
    c.Keeps (.ofCall mark parts routine args rule) ↔
      (∀ f ∈ parts, c.Keeps f) ∧ ∃ signature, rule = .ok signature ∧
        argumentProblems routine signature args mark.loc = [] ∧
        c.types[mark.id]? = some signature.returns := by
  cases rule <;> simp [Finding.ofCall, keeps_node]

theorem typeAt_of_types {id : Nat} (h : c.types[id]? = some type) : c.typeAt id = type := by
  simp [typeAt, h]

theorem Keeps.type_ofRule {rule : Except Cause Ty} (h : c.Keeps (.ofRule mark parts rule)) :
    c.types[mark.id]? = some (Finding.ofRule mark parts rule).type := by
  obtain ⟨_, type, hrule, htype⟩ := keeps_ofRule.mp h
  simpa [hrule, Finding.ofRule] using htype

theorem Keeps.type_ofCall (h : c.Keeps (.ofCall mark parts routine args rule)) :
    c.types[mark.id]? = some (Finding.ofCall mark parts routine args rule).type := by
  obtain ⟨_, signature, hrule, _, htype⟩ := keeps_ofCall.mp h
  simpa [hrule, Finding.ofCall] using htype

theorem Keeps.types_eq {env : Environment} {id : Nat} (h : c.Keeps (infer env e))
    (hid : e.id? = some id) : c.types[id]? = some (infer env e).type := by
  cases e <;> simp only [Expr.id?, Option.some.injEq, reduceCtorEq] at hid <;> subst hid <;>
    rw [infer] at h ⊢
  case call => exact h.type_ofCall
  case invoke m object name args =>
    split at h
    case h_1 => exact h.type_ofCall
    case h_2 =>
      dsimp only at h ⊢
      split at h
      · exact (keeps_node.mp h).2.2
      · exact h.type_ofCall
      · exact h.type_ofRule
  all_goals exact h.type_ofRule

theorem Keeps.recorded {W : String → Prop} (h : c.Keeps (infer env e)) (hf : e.Formed W) :
    ∃ id, e.id? = some id ∧ c.types[id]? = some (infer env e).type := by
  obtain ⟨id, hid⟩ : ∃ id, e.id? = some id := by
    cases e <;> simp_all [Expr.id?, Expr.Formed]
  exact ⟨id, hid, h.types_eq hid⟩

theorem Keeps.typeOf_eq {W : String → Prop} (h : c.Keeps (infer env e)) (hf : e.Formed W) :
    c.typeOf e = (infer env e).type := by
  obtain ⟨id, hid, htype⟩ := h.recorded hf
  simp only [typeOf, hid]
  exact typeAt_of_types htype

end Checked
end Lumen
