import Lumen.Proofs.Typing.Agreement
import Lumen.Proofs.Typing.Judgment

namespace Lumen

open Typing List Environment

namespace Checked

variable {W : String → Prop} {c : Checked} {env : Environment}

mutual

theorem typeAt_ne_error (e : Expr) (h : c.isFaulty e = false) :
    ∀ id ∈ e.ids, c.typeAt id ≠ .error := by
  have hnode {id : Nat} (h : (c.typeAt id).isError = false) : ∀ i ∈ [id], c.typeAt i ≠ .error := by
    intro i hi he
    rw [mem_singleton.mp hi] at he
    simp [he, Ty.isError] at h
  cases e <;> simp only [isFaulty, Bool.or_eq_false_iff] at h <;>
    simp only [Expr.ids, forall_mem_append]
  case literal | «variable» | receiver => exact hnode h
  case binary m op left right =>
    exact ⟨⟨typeAt_ne_error left h.1.2, typeAt_ne_error right h.2⟩, hnode h.1.1⟩
  case unary m op operand => exact ⟨typeAt_ne_error operand h.2, hnode h.1⟩
  case call m name args => exact ⟨typeAt_args_ne_error args h.2, hnode h.1⟩
  case invoke m object name args =>
    exact ⟨⟨typeAt_ne_error object h.1.2, typeAt_args_ne_error args h.2⟩, hnode h.1.1⟩
  case member m object name => exact ⟨typeAt_ne_error object h.2, hnode h.1⟩
  case create m type args => exact ⟨typeAt_args_ne_error args h.2, hnode h.1⟩
  case stray => cases h

theorem typeAt_args_ne_error (es : List Expr) (h : c.anyFaulty es = false) :
    ∀ id ∈ idsOf es, c.typeAt id ≠ .error := by
  cases es
  case nil => simp [idsOf]
  case cons e es =>
    rw [anyFaulty, Bool.or_eq_false_iff] at h
    rw [idsOf, forall_mem_append]
    exact ⟨typeAt_ne_error e h.1, typeAt_args_ne_error es h.2⟩

end

theorem Keeps.parts_of_invoke (hk : c.Keeps (infer env (.invoke m object name args)))
    (hn : env.namedClass? object = none) :
    c.Keeps (infer env object) ∧ ∀ f ∈ inferAll env args, c.Keeps f := by
  simp only [infer, hn] at hk
  rw [← forall_mem_cons (p := c.Keeps)]
  split at hk
  · exact (keeps_node.mp hk).1
  · exact (keeps_ofCall.mp hk).1
  · exact (keeps_ofRule.mp hk).1

section Mentions

variable {x : String} {symbol : Symbol}

mutual

-- The use of a variable without a type is not reported, and leaves an expression without one.
theorem Keeps.unknown (e : Expr) (hk : c.Keeps (infer env e)) (hx : e.mentions x)
    (hs : env.symbol? x = some symbol) (hkind : symbol.kind = .variable)
    (ht : symbol.type = .error) : c.Unknown := by
  cases e <;> simp only [Expr.mentions, Bool.or_eq_true, decide_eq_true_eq,
    Bool.false_eq_true] at hx
  case «variable» m name =>
    subst hx
    rw [infer] at hk
    obtain ⟨-, type, hrule, htype⟩ := keeps_ofRule.mp hk
    simp only [Environment.variableType, hs, hkind, ht, Except.ok.injEq] at hrule
    exact ⟨m.id, hrule ▸ htype⟩
  case binary m op left right =>
    rw [infer] at hk
    obtain ⟨hparts, -⟩ := keeps_ofRule.mp hk
    rcases hx with hx | hx
    · exact Keeps.unknown left (hparts _ (by simp)) hx hs hkind ht
    · exact Keeps.unknown right (hparts _ (by simp)) hx hs hkind ht
  case unary m op operand =>
    rw [infer] at hk
    obtain ⟨hparts, -⟩ := keeps_ofRule.mp hk
    exact Keeps.unknown operand (hparts _ (by simp)) hx hs hkind ht
  case member m object name =>
    rw [infer] at hk
    obtain ⟨hparts, -⟩ := keeps_ofRule.mp hk
    exact Keeps.unknown object (hparts _ (by simp)) hx hs hkind ht
  case create m type args =>
    rw [infer] at hk
    obtain ⟨hparts, -⟩ := keeps_ofRule.mp hk
    exact Keeps.unknown_of_args args hparts hx hs hkind ht
  case call m name args =>
    rw [infer] at hk
    obtain ⟨hparts, -⟩ := keeps_ofCall.mp hk
    exact Keeps.unknown_of_args args hparts hx hs hkind ht
  case invoke m object name args =>
    cases hnamed : env.namedClass? object
    case none =>
      obtain ⟨hobject, hargs⟩ := hk.parts_of_invoke hnamed
      rcases hx with hx | hx
      · exact Keeps.unknown object hobject hx hs hkind ht
      · exact Keeps.unknown_of_args args hargs hx hs hkind ht
    case some found =>
      simp only [infer, hnamed] at hk
      obtain ⟨hparts, -⟩ := keeps_ofCall.mp hk
      rcases hx with hx | hx
      · -- A class is not a variable.
        obtain ⟨rfl, hclass⟩ := namedClass?_some hnamed
        simp only [Expr.mentions, decide_eq_true_eq] at hx
        subst hx
        simp [hs, Symbol.isClass, hkind] at hclass
      · exact Keeps.unknown_of_args args (forall_mem_cons.mp hparts).2 hx hs hkind ht

theorem Keeps.unknown_of_args (es : List Expr) (hk : ∀ f ∈ inferAll env es, c.Keeps f)
    (hx : anyMentions x es) (hs : env.symbol? x = some symbol) (hkind : symbol.kind = .variable)
    (ht : symbol.type = .error) : c.Unknown := by
  cases es
  case nil => cases hx
  case cons e es =>
    rw [inferAll] at hk
    obtain ⟨hke, hkr⟩ := forall_mem_cons.mp hk
    rw [anyMentions, Bool.or_eq_true] at hx
    rcases hx with hx | hx
    · exact Keeps.unknown e hke hx hs hkind ht
    · exact Keeps.unknown_of_args es hkr hx hs hkind ht

end

end Mentions

end Checked

namespace Typing.Environment

structure Complete (env : Environment) : Prop where
  member  : ∀ className name symbol, env.member? className name = some symbol →
    symbol.type ≠ .error
  routine : ∀ name signature, env.routine name = .ok signature → signature.returns ≠ .error
  method  : ∀ className name signature, env.method className name = .ok signature →
    signature.returns ≠ .error

variable {env : Environment}

theorem Complete.staticMethod (h : env.Complete)
    (hm : env.staticMethod className name = .ok signature) : signature.returns ≠ .error := by
  rw [Environment.staticMethod] at hm
  split at hm
  case h_1 found hfound =>
    split at hm
    · cases hm
      exact h.method _ _ _ hfound
    · cases hm
  case h_2 => cases hm

theorem Complete.memberType (h : env.Complete) (hm : env.memberType object name = .ok type)
    (hobject : object ≠ .error) : type ≠ .error := by
  rw [Environment.memberType.eq_def] at hm
  split at hm
  case h_1 => exact absurd rfl hobject
  case h_2 className =>
    split at hm
    case h_1 => cases hm
    case h_2 symbol hs =>
      split at hm
      case isTrue =>
        cases hm
        exact h.member _ _ _ hs
      case isFalse => cases hm
  case h_3 => cases hm

end Typing.Environment

namespace Typing

theorem binaryType_ne_error (h : binaryType op left right = .ok type) (hl : left ≠ .error)
    (hr : right ≠ .error) : type ≠ .error := by
  rintro rfl
  rw [binaryType] at h
  split at h
  case isTrue herror =>
    rw [Bool.or_eq_true, Ty.isError_iff, Ty.isError_iff] at herror
    exact herror.elim hl hr
  case isFalse =>
    split at h
    case h_1 type hresult =>
      cases h
      simpa using BinaryOp.result?_cases hresult
    case h_2 => cases h

theorem unaryType_ne_error (h : unaryType op operand = .ok type) (ho : operand ≠ .error) :
    type ≠ .error := by
  rintro rfl
  rw [unaryType] at h
  split at h
  case isTrue herror => exact ho (Ty.isError_iff.mp herror)
  case isFalse =>
    split at h
    case h_1 type hresult =>
      cases h
      simpa using UnaryOp.result?_cases hresult
    case h_2 => cases h

theorem variableType_ne_error {env : Environment} (h : env.variableType name = .ok type)
    (hs : ∀ symbol, env.symbol? name = some symbol → symbol.type ≠ .error) : type ≠ .error := by
  rw [Environment.variableType] at h
  grind

end Typing

namespace Checked

variable {W : String → Prop} {c : Checked} {env : Environment}

theorem isError_of_types {id : Nat} (h : c.types[id]? = some type) (hne : type ≠ .error) :
    (c.typeAt id).isError = false := by
  rw [typeAt_of_types h]
  cases type <;> first | rfl | exact absurd rfl hne

mutual

-- Where all names have types, so has an expression that passes the check.
theorem Keeps.faultless (henv : env.Complete) (e : Expr) (hf : e.Formed W)
    (hk : c.Keeps (infer env e))
    (hx : ∀ x, e.mentions x → ∀ symbol, env.symbol? x = some symbol → symbol.type ≠ .error) :
    c.isFaulty e = false := by
  cases e <;> simp only [Expr.mentions, Bool.or_eq_true, decide_eq_true_eq] at hx <;>
    simp only [isFaulty, Bool.or_eq_false_iff]
  case literal m value =>
    rw [infer] at hk
    obtain ⟨-, type, hrule, htype⟩ := keeps_ofRule.mp hk
    refine isError_of_types htype ?_
    cases hrule
    cases value <;> simp [literalType]
  case «variable» m name =>
    rw [infer] at hk
    obtain ⟨-, type, hrule, htype⟩ := keeps_ofRule.mp hk
    exact isError_of_types htype (variableType_ne_error hrule (hx name rfl))
  case receiver m =>
    rw [infer] at hk
    obtain ⟨-, type, hrule, htype⟩ := keeps_ofRule.mp hk
    refine isError_of_types htype ?_
    rw [Environment.receiverType] at hrule
    grind
  case binary m op left right =>
    rw [infer] at hk
    obtain ⟨hparts, type, hrule, htype⟩ := keeps_ofRule.mp hk
    have hkl := hparts _ mem_cons_self
    have hkr := hparts _ (mem_cons_of_mem _ mem_cons_self)
    have hl := Keeps.faultless henv left hf.1 hkl fun x h => hx x (.inl h)
    have hr := Keeps.faultless henv right hf.2 hkr fun x h => hx x (.inr h)
    rw [← hkl.typeOf_eq hf.1, ← hkr.typeOf_eq hf.2] at hrule
    exact ⟨⟨isError_of_types htype
      (binaryType_ne_error hrule (typeOf_ne_error hl) (typeOf_ne_error hr)), hl⟩, hr⟩
  case unary m op operand =>
    rw [infer] at hk
    obtain ⟨hparts, type, hrule, htype⟩ := keeps_ofRule.mp hk
    have hko := hparts _ mem_cons_self
    have ho := Keeps.faultless henv operand hf hko hx
    rw [← hko.typeOf_eq hf] at hrule
    exact ⟨isError_of_types htype (unaryType_ne_error hrule (typeOf_ne_error ho)), ho⟩
  case member m object name =>
    rw [infer] at hk
    obtain ⟨hparts, type, hrule, htype⟩ := keeps_ofRule.mp hk
    have hko := hparts _ mem_cons_self
    have ho := Keeps.faultless henv object hf.1 hko hx
    rw [← hko.typeOf_eq hf.1] at hrule
    exact ⟨isError_of_types htype (henv.memberType hrule (typeOf_ne_error ho)), ho⟩
  case create m type args =>
    rw [infer] at hk
    obtain ⟨hparts, created, hrule, htype⟩ := keeps_ofRule.mp hk
    obtain ⟨className, -, -, rfl⟩ := class_of_createdType hrule
    exact ⟨isError_of_types htype (by simp), Keeps.allFaultless henv args hf.2 hparts hx⟩
  case call m name args =>
    rw [infer] at hk
    obtain ⟨hparts, signature, hrule, -, htype⟩ := keeps_ofCall.mp hk
    exact ⟨isError_of_types htype (henv.routine _ _ hrule),
      Keeps.allFaultless henv args hf.2 hparts hx⟩
  case invoke m object name args =>
    cases hnamed : env.namedClass? object
    case none =>
      obtain ⟨hko, hka⟩ := hk.parts_of_invoke hnamed
      have ho := Keeps.faultless henv object hf.1 hko fun x h => hx x (.inl h)
      refine ⟨⟨?_, ho⟩, Keeps.allFaultless henv args hf.2.2 hka fun x h => hx x (.inr h)⟩
      simp only [infer, hnamed] at hk
      split at hk
      case h_1 herror => exact absurd ((hko.typeOf_eq hf.1).trans herror) (typeOf_ne_error ho)
      case h_2 className _ =>
        obtain ⟨-, signature, hrule, -, htype⟩ := keeps_ofCall.mp hk
        exact isError_of_types htype (henv.method _ _ _ hrule)
      case h_3 =>
        obtain ⟨-, _, hrule, -⟩ := keeps_ofRule.mp hk
        cases hrule
    case some found =>
      obtain ⟨mark, className⟩ := found
      simp only [infer, hnamed] at hk
      obtain ⟨hparts, signature, hrule, -, htype⟩ := keeps_ofCall.mp hk
      obtain ⟨hclass, hka⟩ := forall_mem_cons.mp hparts
      obtain ⟨rfl, -⟩ := namedClass?_some hnamed
      exact ⟨⟨isError_of_types htype (henv.staticMethod hrule),
        isError_of_types (keeps_node.mp hclass).2.2 (by simp)⟩,
        Keeps.allFaultless henv args hf.2.2 hka fun x h => hx x (.inr h)⟩
  case stray => exact hf.elim

theorem Keeps.allFaultless (henv : env.Complete) (es : List Expr) (hf : FormedArgs W es)
    (hk : ∀ f ∈ inferAll env es, c.Keeps f)
    (hx : ∀ x, anyMentions x es → ∀ symbol, env.symbol? x = some symbol → symbol.type ≠ .error) :
    c.anyFaulty es = false := by
  cases es
  case nil => rfl
  case cons e es =>
    rw [inferAll] at hk
    obtain ⟨hke, hkr⟩ := forall_mem_cons.mp hk
    simp only [anyMentions, Bool.or_eq_true] at hx
    rw [Checked.anyFaulty, Bool.or_eq_false_iff]
    exact ⟨Keeps.faultless henv e hf.1 hke fun x h => hx x (.inl h),
      Keeps.allFaultless henv es hf.2 hkr fun x h => hx x (.inr h)⟩

end

end Checked

def Names.Typed (c : Checked) (names : Names) : Prop :=
  names.All (·.declared.typeIn c ≠ .error)

namespace Names.Typed

variable {c : Checked} {names : Names}

theorem empty (c : Checked) : Names.empty.Typed c :=
  All.empty _

theorem enter (h : names.Typed c) : names.enter.Typed c :=
  h

theorem skip (h : names.Typed c) (count : Nat) : (names.skip count).Typed c :=
  h

theorem declare {d : Declaration} (h : names.Typed c) (hd : d.typeIn c ≠ .error) :
    (names.declare d).Typed c :=
  All.declare h fun _ _ => hd

theorem ofParams (c : Checked) (params : List Param) : (Names.ofParams params).Typed c :=
  All.ofParams fun p _ _ _ => Ty.ofName_ne_error p.type

end Names.Typed

namespace Setting

variable (g : Setting)

structure Complete : Prop where
  returns : ∀ i ∈ g.outer, ∀ name symbol, g.table.inScope? i name = some symbol →
    ∀ signature, symbol.kind = .routine signature → signature.returns ≠ .error
  members : ∀ className name symbol, g.table.member? className name = some symbol →
    symbol.type ≠ .error ∧
      ∀ signature, symbol.kind = .routine signature → signature.returns ≠ .error

def Sees (found : List (Names × Expr)) : Prop :=
  ∀ p ∈ found, ∀ x, p.2.mentions x → p.1.find? x = none → ∀ symbol,
    g.outer.findSome? (g.table.inScope? · x) = some symbol → symbol.type ≠ .error

variable {g}

theorem Complete.environment (h : g.Complete) (names : Names) :
    (g.environment names).Complete where
  member className name symbol hs := (h.members className name symbol hs).1
  routine name signature hr := by
    rw [Environment.routine] at hr
    split at hr
    case h_1 => cases hr
    case h_2 symbol hs =>
      split at hr
      case h_2 => cases hr
      case h_1 found hkind =>
        have hfound : found = signature := by grind
        subst hfound
        simp only [Setting.environment] at hs
        split at hs
        case h_1 b hb =>
          cases hs
          simp only [Binding.symbol] at hkind
          split at hkind <;> cases hkind
        case h_2 =>
          obtain ⟨i, hi, hsymbol⟩ := exists_of_findSome?_eq_some hs
          exact h.returns i hi name symbol hsymbol found hkind
  method className name signature hm := by
    rw [Environment.method] at hm
    split at hm
    case h_1 => cases hm
    case h_2 symbol hs =>
      split at hm
      case h_1 found hkind =>
        cases hm
        exact (h.members className name symbol hs).2 _ hkind
      case h_2 => cases hm

theorem Admits.faultless {W : String → Prop} (h : g.Admits names e) (hg : g.Complete)
    (hf : e.Formed W) (hn : names.Typed g.program) (hs : g.Sees [(names, e)]) :
    g.program.isFaulty e = false := by
  refine Checked.Keeps.faultless (hg.environment names) e hf h fun x hx symbol hsymbol => ?_
  simp only [Setting.environment] at hsymbol
  split at hsymbol
  case h_1 b hb =>
    cases hsymbol
    exact hn x b hb
  case h_2 hnone => exact hs _ (mem_singleton.mpr rfl) x hx hnone symbol hsymbol

theorem Sees.append (h : g.Sees (found ++ more)) : g.Sees found ∧ g.Sees more :=
  forall_mem_append.mp h

end Setting

section Admits

variable {g : Setting}

mutual

theorem Stmt.Valid.admits_evaluated (names : Names) (inLoop : Bool) (s : Stmt)
    (hv : s.Valid g names inLoop) : ∀ p ∈ s.evaluated names, g.Admits p.1 p.2 := by
  cases s <;> rw [Stmt.Valid] at hv <;> rw [Stmt.evaluated]
  case «variable» loc name type init => simpa using hv.admits
  case constant loc name type value => simpa using hv.admits
  case block loc body => exact ValidBody.admits_evaluated names.enter inLoop body hv
  case assign loc target op value => simpa using ⟨hv.reads, hv.admits⟩
  case result loc value =>
    cases value
    case none => simp
    case some value => simpa using hv.1
  case branch loc condition thenBody elseBody =>
    rw [forall_mem_append, forall_mem_cons]
    exact ⟨⟨hv.1.admits, ValidBody.admits_evaluated names.enter inLoop thenBody hv.2.1⟩,
      ValidElse.admits_evaluated _ inLoop elseBody hv.2.2⟩
  case whileLoop loc condition body =>
    rw [forall_mem_cons]
    exact ⟨hv.1.admits, ValidBody.admits_evaluated names.enter true body hv.2⟩
  case forLoop loc init condition update body =>
    rw [forall_mem_append, forall_mem_append, forall_mem_append]
    refine ⟨⟨⟨ValidStep.admits_evaluated _ inLoop init hv.1, ?_⟩,
      ValidStep.admits_evaluated _ inLoop update hv.2.2.1⟩,
      ValidBody.admits_evaluated _ true body hv.2.2.2⟩
    simpa using fun e he => (hv.2.1 e he).admits
  case evaluate loc e => simpa using hv
  all_goals simp

theorem ValidBody.admits_evaluated (names : Names) (inLoop : Bool) (body : List Stmt)
    (hv : ValidBody g names inLoop body) : ∀ p ∈ evaluatedIn names body, g.Admits p.1 p.2 := by
  cases body
  case nil => simp [evaluatedIn]
  case cons s rest =>
    rw [ValidBody] at hv
    rw [evaluatedIn, forall_mem_append]
    exact ⟨Stmt.Valid.admits_evaluated names inLoop s hv.1,
      ValidBody.admits_evaluated _ inLoop rest hv.2⟩

theorem ValidElse.admits_evaluated (names : Names) (inLoop : Bool) (body : Option (List Stmt))
    (hv : ValidElse g names inLoop body) :
    ∀ p ∈ evaluatedInElse names body, g.Admits p.1 p.2 := by
  cases body
  case none => simp [evaluatedInElse]
  case some body =>
    rw [evaluatedInElse]
    exact ValidBody.admits_evaluated names.enter inLoop body hv

theorem ValidStep.admits_evaluated (names : Names) (inLoop : Bool) (s : Option Stmt)
    (hv : ValidStep g names inLoop s) : ∀ p ∈ evaluatedInStep names s, g.Admits p.1 p.2 := by
  cases s
  case none => simp [evaluatedInStep]
  case some s => exact Stmt.Valid.admits_evaluated names inLoop s hv

end

end Admits

section Faultless

variable {W : String → Prop} {g : Setting} {names : Names}

theorem Setting.Fills.faultless (h : g.Fills names d) (hg : g.Complete) (hf : FormedOption W d.init)
    (hsome : d.type.isSome ∨ d.init.isSome) (hn : names.Typed g.program)
    (hs : g.Sees (d.init.toList.map (names, ·))) :
    (∀ p ∈ d.init.toList.map (names, ·), g.program.isFaulty p.2 = false) ∧
      d.typeIn g.program ≠ .error := by
  obtain ⟨name, loc, type, init, isConst, isParam⟩ := d
  cases init
  case none =>
    refine ⟨by simp, ?_⟩
    cases type
    case none => simp at hsome
    case some w => exact Ty.ofName_ne_error w
  case some init =>
    have hinit := (h.admits init rfl).faultless hg hf hn hs
    refine ⟨by simpa using hinit, ?_⟩
    cases type
    case none => exact Checked.typeOf_ne_error hinit
    case some w => exact Ty.ofName_ne_error w

mutual

theorem Stmt.Valid.faultless (hg : g.Complete) (names : Names) (inLoop : Bool) (s : Stmt)
    (hf : s.Formed W) (hv : s.Valid g names inLoop) (hn : names.Typed g.program)
    (hs : g.Sees (s.evaluated names)) :
    (∀ p ∈ s.evaluated names, g.program.isFaulty p.2 = false) ∧
      (names.after s).Typed g.program := by
  cases s <;> rw [Stmt.Formed] at hf <;> rw [Stmt.Valid] at hv <;> rw [Stmt.evaluated] at hs ⊢
  case «variable» loc name type init =>
    obtain ⟨hall, htype⟩ := hv.toFills.faultless hg hf.2.2.1 hf.2.2.2 hn hs
    exact ⟨hall, hn.declare htype⟩
  case constant loc name type value =>
    obtain ⟨hall, htype⟩ := hv.toFills.faultless hg hf.2.2 (.inl rfl) hn hs
    exact ⟨hall, hn.declare htype⟩
  case block loc body =>
    exact ⟨ValidBody.faultless hg names.enter inLoop body hf hv hn hs, hn.skip _⟩
  case assign loc target op value =>
    obtain ⟨hs₁, hs₂⟩ : g.Sees [(names, target)] ∧ g.Sees [(names, value)] := hs.append
    refine ⟨?_, hn.skip _⟩
    simpa using ⟨hv.reads.faultless hg hf.2.2.1 hn hs₁, hv.admits.faultless hg hf.2.2.2 hn hs₂⟩
  case result loc value =>
    refine ⟨?_, hn.skip _⟩
    cases value
    case none => simp
    case some value =>
      have hadmits : g.Admits names value := hv.1
      simpa using hadmits.faultless hg hf hn hs
  case branch loc condition thenBody elseBody =>
    obtain ⟨hs₁, hs₃⟩ := hs.append
    obtain ⟨hs₁, hs₂⟩ : g.Sees [(names, condition)] ∧ g.Sees (evaluatedIn names.enter thenBody) :=
      hs₁.append
    refine ⟨?_, hn.skip _⟩
    rw [forall_mem_append, forall_mem_cons]
    exact ⟨⟨hv.1.admits.faultless hg hf.1 hn hs₁,
      ValidBody.faultless hg names.enter inLoop thenBody hf.2.1 hv.2.1 hn hs₂⟩,
      ValidElse.faultless hg _ inLoop elseBody hf.2.2 hv.2.2 (hn.skip _) hs₃⟩
  case whileLoop loc condition body =>
    obtain ⟨hs₁, hs₂⟩ : g.Sees [(names, condition)] ∧ g.Sees (evaluatedIn names.enter body) :=
      hs.append
    refine ⟨?_, hn.skip _⟩
    rw [forall_mem_cons]
    exact ⟨hv.1.admits.faultless hg hf.1 hn hs₁,
      ValidBody.faultless hg names.enter true body hf.2 hv.2 hn hs₂⟩
  case forLoop loc init condition update body =>
    obtain ⟨hsteps, hs₄⟩ := hs.append
    obtain ⟨hstart, hs₃⟩ := hsteps.append
    obtain ⟨hs₁, hs₂⟩ := hstart.append
    obtain ⟨hinit, hn'⟩ := ValidStep.faultless hg names.enter inLoop init hf.2.1 hv.1 hn hs₁
    obtain ⟨hupdate, -⟩ := ValidStep.faultless hg (names.enter.afterStep init) inLoop update
      hf.2.2.2.2.1 hv.2.2.1 hn' hs₃
    refine ⟨?_, hn.skip _⟩
    rw [forall_mem_append, forall_mem_append, forall_mem_append]
    refine ⟨⟨⟨hinit, ?_⟩, hupdate⟩,
      ValidBody.faultless hg _ true body hf.2.2.2.2.2 hv.2.2.2 hn'.enter hs₄⟩
    cases condition
    case none => simp
    case some condition =>
      simpa using (hv.2.1 condition rfl).admits.faultless hg hf.2.2.1 hn' hs₂
  case breakLoop | continueLoop => exact ⟨by simp, hn.skip _⟩
  case evaluate loc e =>
    have hadmits : g.Admits names e := hv
    exact ⟨by simpa using hadmits.faultless hg hf hn hs, hn.skip _⟩
  case classDef | routine | bare => exact hf.elim

theorem ValidBody.faultless (hg : g.Complete) (names : Names) (inLoop : Bool) (body : List Stmt)
    (hf : FormedBody W body) (hv : ValidBody g names inLoop body) (hn : names.Typed g.program)
    (hs : g.Sees (evaluatedIn names body)) :
    ∀ p ∈ evaluatedIn names body, g.program.isFaulty p.2 = false := by
  cases body
  case nil => simp [evaluatedIn]
  case cons s rest =>
    rw [FormedBody] at hf
    rw [ValidBody] at hv
    rw [evaluatedIn] at hs ⊢
    obtain ⟨hs₁, hs₂⟩ := hs.append
    obtain ⟨hall, hn'⟩ := Stmt.Valid.faultless hg names inLoop s hf.1 hv.1 hn hs₁
    exact forall_mem_append.mpr
      ⟨hall, ValidBody.faultless hg _ inLoop rest hf.2 hv.2 hn' hs₂⟩

theorem ValidElse.faultless (hg : g.Complete) (names : Names) (inLoop : Bool)
    (body : Option (List Stmt)) (hf : FormedElse W body) (hv : ValidElse g names inLoop body)
    (hn : names.Typed g.program) (hs : g.Sees (evaluatedInElse names body)) :
    ∀ p ∈ evaluatedInElse names body, g.program.isFaulty p.2 = false := by
  cases body
  case none => simp [evaluatedInElse]
  case some body =>
    rw [evaluatedInElse] at hs ⊢
    exact ValidBody.faultless hg names.enter inLoop body hf hv hn hs

theorem ValidStep.faultless (hg : g.Complete) (names : Names) (inLoop : Bool) (s : Option Stmt)
    (hf : FormedStep W s) (hv : ValidStep g names inLoop s) (hn : names.Typed g.program)
    (hs : g.Sees (evaluatedInStep names s)) :
    (∀ p ∈ evaluatedInStep names s, g.program.isFaulty p.2 = false) ∧
      (names.afterStep s).Typed g.program := by
  cases s
  case none => exact ⟨by simp [evaluatedInStep], hn⟩
  case some s => exact Stmt.Valid.faultless hg names inLoop s hf hv hn hs

end

end Faultless

end Lumen
