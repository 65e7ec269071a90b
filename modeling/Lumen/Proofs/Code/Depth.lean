import Lumen.Code.Value
import Lumen.Proofs.Typing.Judgment

namespace Lumen

open Option

namespace Code

def depthAfter? (depth : Nat) : List Instruction → Option Nat
  | [] => some depth
  | i :: rest => if depth < i.pops then none else depthAfter? (depth - i.pops + i.pushes) rest

theorem depthAfter?_append (depth : Nat) (code rest : List Instruction) :
    depthAfter? depth (code ++ rest) = (depthAfter? depth code).bind (depthAfter? · rest) := by
  induction code generalizing depth
  case nil => rfl
  case cons i code ih =>
    simp only [List.cons_append, depthAfter?]
    split
    · rfl
    · exact ih _

theorem depthAfter?_single (depth : Nat) (i : Instruction) :
    depthAfter? depth [i] = if depth < i.pops then none else some (depth - i.pops + i.pushes) :=
  rfl

-- Whether a measure of the stack fails depends on the depths alone.
theorem exists_stackDepth_iff (depth deepest index : Nat) (code : List Instruction) :
    (∃ n, stackDepth depth deepest index code = .ok n) ↔ (depthAfter? depth code).isSome := by
  induction code generalizing depth deepest index
  case nil => simp [stackDepth, depthAfter?]
  case cons i code ih =>
    rw [stackDepth, depthAfter?]
    split
    · simp
    · exact ih _ _ _

-- Code that needs `taken` values below it, takes them and leaves `left` others.
def Takes (code : List Instruction) (taken left : Nat) : Prop :=
  ∀ depth, depthAfter? depth code = if taken ≤ depth then some (depth - taken + left) else none

-- Code that leaves `count` values, of which some are missing: they must be on the stack before.
structure Gives (code : List Instruction) (count missing : Nat) : Prop where
  depth : ∀ d d', depthAfter? d code = some d' → d' + missing = d + count
  reads : ∀ d, missing ≤ d → (depthAfter? d code).isSome

theorem Takes.gives {code : List Instruction} (h : Takes code taken left) :
    Gives code left taken where
  depth d d' hd := by
    rw [h d] at hd
    split at hd <;> grind
  reads d hd := by simp [h d, hd]

theorem takes_single (i : Instruction) : Takes [i] i.pops i.pushes := by
  intro depth
  rw [depthAfter?_single]
  grind

namespace Gives

variable {code rest : List Instruction} {count count' missing missing' : Nat}

theorem nil : Gives [] 0 0 where
  depth d d' hd := by grind [depthAfter?]
  reads d _ := rfl

section

variable (h : Gives code count missing)

include h

theorem append (h' : Gives rest count' missing') :
    Gives (code ++ rest) (count + count') (missing + missing') where
  depth d d' hd := by
    rw [depthAfter?_append] at hd
    obtain ⟨m, hm, hd'⟩ := bind_eq_some_iff.mp hd
    have h₁ := h.depth d m hm
    have h₂ := h'.depth m d' hd'
    omega
  reads d hd := by
    obtain ⟨m, hm⟩ := isSome_iff_exists.mp (h.reads d (by omega))
    have h₁ := h.depth d m hm
    rw [depthAfter?_append, hm]
    exact h'.reads m (by omega)

theorem of_eq (hc : count = count') (hm : missing = missing') :
    Gives code count' missing' :=
  hc ▸ hm ▸ h

theorem then_single {i : Instruction} (hp : i.pops ≤ count) :
    Gives (code ++ [i]) (count - i.pops + i.pushes) missing where
  depth d d' hd := by
    rw [depthAfter?_append] at hd
    obtain ⟨m, hm, hd'⟩ := bind_eq_some_iff.mp hd
    have h₁ := h.depth d m hm
    rw [depthAfter?_single] at hd'
    split at hd' <;> grind
  reads d hd := by
    obtain ⟨m, hm⟩ := isSome_iff_exists.mp (h.reads d hd)
    have h₁ := h.depth d m hm
    rw [depthAfter?_append, hm, bind_some, depthAfter?_single, if_neg (by omega)]
    rfl

-- An instruction that takes all values: then the missing ones are told apart from those below.
theorem takes {i : Instruction} (hp : i.pops = count)
    (hq : i.pushes = left) : Takes (code ++ [i]) missing left := by
  intro depth
  rw [depthAfter?_append]
  cases hm : depthAfter? depth code
  case none =>
    have hn : ¬missing ≤ depth := fun hle => by simpa [hm] using h.reads depth hle
    rw [if_neg hn]
    rfl
  case some m =>
    have h₁ := h.depth depth m hm
    rw [bind_some, depthAfter?_single]
    grind

theorem taken {i : Instruction} (hp : i.pops = count)
    (hq : i.pushes = 0) : Takes (code ++ [i]) missing 0 :=
  h.takes hp hq

end

theorem of_takes_nothing (h : Takes code missing 0) : Gives code 1 (missing + 1) where
  depth d d' hd := by
    have := h.gives.depth d d' hd
    omega
  reads d hd := h.gives.reads d (by omega)

end Gives

end Code

def Expr.isCall : Expr → Bool
  | .call .. | .invoke .. => true
  | _ => false

namespace Checked

variable (c : Checked)

mutual

def voidCalls : Expr → Nat
  | .literal .. | .variable .. | .receiver _ | .stray _ => 0
  | .binary _ _ left right => voidCalls left + voidCalls right
  | .unary _ _ operand => voidCalls operand
  | .call m _ args => voidCallsOf args + if c.typeAt m.id = .void then 1 else 0
  | .invoke m object _ args =>
    voidCalls object + voidCallsOf args + if c.typeAt m.id = .void then 1 else 0
  | .member _ object _ => voidCalls object
  | .create _ _ args => voidCallsOf args

def voidCallsOf : List Expr → Nat
  | [] => 0
  | e :: es => voidCalls e + voidCallsOf es

end

end Checked

namespace Code.Site

open Typing

variable {env : Environment} {site : Site}

def EndsCall (code : List Instruction) (missing : Nat) (type : Ty) : Prop :=
  ∃ before count target loc, Gives before count missing ∧
    code = before ++ [.withOperand .call (.call target count) type loc]

theorem EndsCall.takes (h : EndsCall code missing .void) : Takes code missing 0 := by
  obtain ⟨before, count, target, loc, hbefore, rfl⟩ := h
  exact hbefore.takes rfl rfl

theorem EndsCall.gives (h : EndsCall code missing type) :
    Gives code 1 (missing + if type = .void then 1 else 0) := by
  split
  case isTrue hv =>
    subst hv
    exact .of_takes_nothing h.takes
  case isFalse hv =>
    obtain ⟨before, count, target, loc, hbefore, rfl⟩ := h
    have hpushes : (Instruction.withOperand .call (.call target count) type loc).pushes = 1 :=
      if_neg hv
    exact (hbefore.takes rfl hpushes).gives

theorem receiver_gives (site : Site) (slots : Slots) (loc : Location) :
    Gives [site.receiver slots loc] 1 0 :=
  (takes_single _).gives

attribute [local simp] value in
theorem variable_takes (site : Site) (slots : Slots) (m : Mark) (name : String) :
    Takes (site.value slots (.variable m name)) 0 1 := by
  simp
  split
  · exact takes_single _
  · exact (site.receiver_gives slots m.loc).takes rfl rfl
  · exact takes_single _

theorem call_ends (slots : Slots) (m : Mark) (name : String)
    (hargs : Gives (site.values slots args) args.length missing) :
    EndsCall (site.value slots (.call m name args)) missing (site.program.typeAt m.id) := by
  simp only [value]
  split
  case isTrue =>
    have hall := (site.receiver_gives slots m.loc).append hargs
    exact ⟨_, _, _, m.loc, hall.of_eq (Nat.add_comm _ _) (Nat.zero_add _), rfl⟩
  case isFalse => exact ⟨_, _, _, m.loc, hargs, rfl⟩

theorem exists_of_isClassName (h : site.isClassName slots e) : ∃ m name, e = .variable m name := by
  cases e
  case «variable» m name => exact ⟨m, name, rfl⟩
  all_goals cases h

theorem object_gives {slots : Slots} {object : Expr} {className : String}
    (h : (∃ mark, env.namedClass? object = some (mark, className) ∧ p) ∨ (env.namedClass? object =
      none ∧ object.Typed site.program env ∧ q))
    (hvalue : object.Typed site.program env → Gives (site.value slots object) 1
      (site.program.voidCalls object)) :
    Gives (site.value slots object) 1 (site.program.voidCalls object) := by
  rcases h with ⟨mark, hnamed, _⟩ | ⟨_, hobject, _⟩
  · rw [(Environment.namedClass?_some hnamed).1]
    exact (site.variable_takes slots mark className).gives
  · exact hvalue hobject

theorem invoke_ends {slots : Slots} (m : Mark) {object : Expr} (name : String) {args : List Expr}
    {missing : Nat} {className : String} (htype : site.program.typeOf object = .object className)
    (hobject : Gives (site.value slots object) 1 (site.program.voidCalls object))
    (hargs : Gives (site.values slots args) args.length missing) :
    EndsCall (site.value slots (.invoke m object name args))
      (site.program.voidCalls object + missing) (site.program.typeAt m.id) := by
  simp only [value, htype]
  split
  case isTrue hc =>
    obtain ⟨mark, name, heq⟩ := exists_of_isClassName hc
    rw [heq, Checked.voidCalls, Nat.zero_add]
    exact ⟨_, _, _, m.loc, hargs, rfl⟩
  case isFalse =>
    split
    case isTrue =>
      have hpop := (hobject.takes (i := .plain .pop (.object className) m.loc) rfl rfl).gives
      exact ⟨_, _, fullName (some className) name, m.loc,
        (hpop.append hargs).of_eq (Nat.zero_add _) rfl, by simp⟩
    case isFalse => exact ⟨_, _, _, m.loc, (hobject.append hargs).of_eq (Nat.add_comm _ _) rfl, rfl⟩

section

variable (slots : Slots)

mutual

-- The code of a typed expression leaves one value. Each call without a result in it is missed.
theorem value_gives (e : Expr) (h : e.Typed site.program env) :
    Gives (site.value slots e) 1 (site.program.voidCalls e) := by
  cases e <;> rw [Expr.Typed] at h
  case literal => exact (takes_single _).gives
  case «variable» m name => exact (site.variable_takes slots m name).gives
  case receiver => exact site.receiver_gives slots _
  case binary m op left right =>
    have hboth := (value_gives left h.1).append (value_gives right h.2.1)
    cases op <;> exact (hboth.takes rfl rfl).gives
  case unary m op operand =>
    cases op <;> exact ((value_gives operand h.1).takes rfl rfl).gives
  case call m name args => exact (call_ends slots m name (values_give args h.1)).gives
  case invoke m object name args =>
    obtain ⟨hargs, className, signature, htype, _, _, hobject⟩ := h
    exact (invoke_ends m name htype (object_gives hobject (value_gives object))
      (values_give args hargs)).gives
  case member m object name =>
    obtain ⟨hobject, className, symbol, htype, _⟩ := h
    simp only [value, Checked.voidCalls, htype]
    exact ((value_gives object hobject).takes rfl rfl).gives
  case create m type args =>
    obtain ⟨hargs, className, htype, _⟩ := h
    subst htype
    have hnew : Gives [.withOperand .create (.symbol className) (site.program.typeAt m.id) m.loc,
        .plain .dup (site.program.typeAt m.id) m.loc] 2 0 :=
      (takes_single _).gives.then_single (Nat.le_refl 1)
    have hall := hnew.append (values_give args hargs)
    have hlast := hall.then_single (i := .withOperand .construct
      (.call (fullName (some className) constructorName) (args.length + 1)) .void m.loc)
      (show args.length + 1 ≤ 2 + args.length by omega)
    exact hlast.of_eq (show 2 + args.length - (args.length + 1) + 0 = 1 by omega) (Nat.zero_add _)
  case stray => exact h.elim

theorem values_give (es : List Expr) (h : TypedArgs site.program env es) :
    Gives (site.values slots es) es.length (site.program.voidCallsOf es) := by
  cases es
  case nil => exact .nil
  case cons e es =>
    rw [values, Checked.voidCallsOf, List.length_cons, Nat.add_comm es.length]
    exact (value_gives e h.1).append (values_give es h.2)

end

end

-- The types that no value has come from calls and from fields.
theorem result?_ne_void (op : BinaryOp) (left right : Ty) :
    op.result? left right ≠ some .void := by
  intro h
  simpa using BinaryOp.result?_cases h

theorem unary_result?_ne_void (op : UnaryOp) (operand : Ty) : op.result? operand ≠ some .void := by
  intro h
  simpa using UnaryOp.result?_cases h

theorem receiverType_ne_void : env.receiverType ≠ .ok .void := by
  rw [Environment.receiverType]
  grind

theorem voidCall_takes (slots : Slots) {e : Expr} (h : e.Typed site.program env)
    (hc : e.isCall) (hv : site.program.typeOf e = .void) :
    Takes (site.value slots e) (site.program.voidCalls e - 1) 0 := by
  cases e <;> try cases hc
  case call m name args =>
    have hend := call_ends slots m name (values_give slots args h.1)
    rw [show site.program.typeAt m.id = .void from hv] at hend
    simpa [Checked.voidCalls, show site.program.typeAt m.id = .void from hv] using hend.takes
  case invoke m object name args =>
    obtain ⟨hargs, className, signature, htype, _, _, hobject⟩ := h
    have hend := invoke_ends m name htype (object_gives hobject (value_gives slots object))
      (values_give slots args hargs)
    rw [show site.program.typeAt m.id = .void from hv] at hend
    simpa [Checked.voidCalls, show site.program.typeAt m.id = .void from hv] using hend.takes

theorem voidField_takes (slots : Slots) {e : Expr} (h : e.Typed site.program env)
    (hc : e.isCall = false) (hv : site.program.typeOf e = .void) :
    Takes (site.value slots e) (site.program.voidCalls e) 1 := by
  cases e <;> rw [Expr.Typed] at h
  case «variable» m name => exact site.variable_takes slots m name
  case member m object name =>
    obtain ⟨hobject, className, symbol, htype, _⟩ := h
    simp only [value, Checked.voidCalls, htype]
    exact (value_gives slots object hobject).takes rfl rfl
  case call | invoke => cases hc
  case literal m l => cases l <;> cases hv.symm.trans h
  case receiver m => exact absurd (h.trans (congrArg _ hv)) receiverType_ne_void
  case binary m op left right => exact absurd (h.2.2.trans (congrArg _ hv)) (result?_ne_void op _ _)
  case unary m op operand => exact absurd (h.2.trans (congrArg _ hv)) (unary_result?_ne_void op _)
  case create m type args =>
    obtain ⟨_, className, _, _, htype⟩ := h
    cases hv.symm.trans htype
  case stray => exact h.elim

end Code.Site
end Lumen
