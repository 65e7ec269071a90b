import Lumen.Proofs.Code.Occurrences
import Lumen.Proofs.Code.Routines
import Lumen.Proofs.Execution.Machine

namespace Lumen

open Typing Code
open List hiding count
open Option

namespace Code

variable {s' : S} {name : String} {k : Nat} {v : V} {object : Expr}

def Layout.storage (l : Layout) : Referent → Storage
  | .cell k => .slot (l.cell k)
  | .field className => .field className
  | .global => .global

section Act

variable {V S : Type} (meaning : Meaning V S) (slots : Nat → V) (stack : List V) (s : S)
  (type : Ty) (loc : Location)

theorem act_binary (op : BinaryOp) (x y : V) :
    (Instruction.plain (.ofBinary op) type loc).act meaning ⟨y :: x :: stack, slots, s⟩ =
      (meaning.binary op type x y s).map fun r => ⟨r.1 :: stack, slots, r.2⟩ := by
  cases op <;> rfl

theorem act_unary (op : UnaryOp) (x : V) :
    (Instruction.plain (.ofUnary op) type loc).act meaning ⟨x :: stack, slots, s⟩ =
      (meaning.unary op type x s).map fun r => ⟨r.1 :: stack, slots, r.2⟩ := by
  cases op <;> rfl

theorem act_load (name : String) (n : Nat) :
    (Instruction.access .load name type (some n) loc).act meaning ⟨stack, slots, s⟩ =
      some ⟨slots n :: stack, slots, s⟩ :=
  rfl

theorem act_loadGlobal (name : String) :
    (Instruction.access .load name type none loc).act meaning ⟨stack, slots, s⟩ =
      (meaning.getGlobal name s).map fun r => ⟨r.1 :: stack, slots, r.2⟩ :=
  rfl

theorem act_getField (field : String) (x : V) :
    (Instruction.withOperand .getField (.symbol field) type loc).act meaning
        ⟨x :: stack, slots, s⟩ =
      (meaning.getField field x s).map fun r => ⟨r.1 :: stack, slots, r.2⟩ :=
  rfl

theorem act_store (name : String) (n : Nat) (v : V) :
    (Instruction.access .store name type (some n) loc).act meaning ⟨v :: stack, slots, s⟩ =
      some ⟨stack, Function.update slots n v, s⟩ :=
  rfl

theorem act_storeGlobal (name : String) (v : V) :
    (Instruction.access .store name type none loc).act meaning ⟨v :: stack, slots, s⟩ =
      (meaning.putGlobal name v s).map fun s => ⟨stack, slots, s⟩ :=
  rfl

theorem act_putField (field : String) (x v : V) :
    (Instruction.withOperand .putField (.symbol field) type loc).act meaning
        ⟨v :: x :: stack, slots, s⟩ =
      (meaning.putField field x v s).map fun s => ⟨stack, slots, s⟩ :=
  rfl

theorem act_create (className : String) :
    (Instruction.withOperand .create (.symbol className) type loc).act meaning ⟨stack, slots, s⟩ =
      (meaning.create className s).map fun r => ⟨r.1 :: stack, slots, r.2⟩ :=
  rfl

theorem act_dup (x : V) :
    (Instruction.plain .dup type loc).act meaning ⟨x :: stack, slots, s⟩ =
      some ⟨x :: x :: stack, slots, s⟩ :=
  rfl

theorem act_pop (x : V) :
    (Instruction.plain .pop type loc).act meaning ⟨x :: stack, slots, s⟩ =
      some ⟨stack, slots, s⟩ :=
  rfl

theorem args?_reverse (vs : List V) :
    (⟨vs.reverse ++ stack, slots, s⟩ : Machine V S).args? vs.length = some (vs, stack) := by
  have hlength : vs.length = vs.reverse.length := vs.length_reverse.symm
  rw [Machine.args?, if_pos (by simp), hlength, take_left, drop_left, reverse_reverse]

theorem act_call (target : String) (vs : List V) (hc : count = vs.length) :
    (Instruction.withOperand .call (.call target count) type loc).act meaning
        ⟨vs.reverse ++ stack, slots, s⟩ =
      (meaning.call target vs s).map fun r =>
        ⟨if type = .void then stack else r.1 :: stack, slots, r.2⟩ := by
  have hact : (Instruction.withOperand .call (.call target count) type loc).act meaning
      ⟨vs.reverse ++ stack, slots, s⟩ =
      ((⟨vs.reverse ++ stack, slots, s⟩ : Machine V S).args? count).bind fun r =>
        (meaning.call target r.1 s).bind fun q =>
          some ⟨if type = .void then r.2 else q.1 :: r.2, slots, q.2⟩ := rfl
  rw [hact, hc, args?_reverse, bind_some]
  cases meaning.call target vs s <;> rfl

theorem act_construct (target : String) (vs : List V) (hc : count = vs.length) :
    (Instruction.withOperand .construct (.call target count) type loc).act meaning
        ⟨vs.reverse ++ stack, slots, s⟩ =
      (meaning.construct target vs s).map fun s => ⟨stack, slots, s⟩ := by
  have hact : (Instruction.withOperand .construct (.call target count) type loc).act meaning
      ⟨vs.reverse ++ stack, slots, s⟩ =
      ((⟨vs.reverse ++ stack, slots, s⟩ : Machine V S).args? count).bind fun r =>
        (meaning.construct target r.1 s).bind fun q => some ⟨r.2, slots, q⟩ := rfl
  rw [hact, hc, args?_reverse, bind_some]
  cases meaning.construct target vs s <;> rfl

end Act
end Code

namespace Activation

variable {V S : Type} (a : Activation V S)

def site (kind : Routine.Kind) : Site :=
  a.setting.site kind a.className

structure Finds (kind : Routine.Kind) (l : Layout) (names : Names) : Prop where
  stored   : ∀ (name : String) (type : Ty), Token.IsName name →
    (a.environment names).variableType name = .ok type →
    (a.site kind).storage (l.slots names) name = l.storage (a.referent names name)
  called   : ∀ (name : String) (signature : Signature), Token.IsName name →
    (a.environment names).routine name = .ok signature →
    (a.site kind).target name = a.target names name ∧
      ((a.target names name).2 → a.setting.receiver?.isSome)
  classes  : ∀ (m : Mark) (name : String) (symbol : Symbol), Token.IsName name →
    (a.environment names).symbol? name = some symbol → symbol.signature? = none →
    (a.site kind).isClassName (l.slots names) (.variable m name) = symbol.isClass
  members  : (a.environment names).member? = a.program.symbols.member?
  receiver : a.setting.receiver?.isSome → (l.slots names).find? "this" = some 0
  start    : a.setting.receiver?.isSome → 0 < l.start
  cells    : names.All (·.cell < l.declared.length)
  valued   : (a.environment names).Valued

structure Holds (l : Layout) (cells slots : Nat → V) : Prop where
  cells : ∀ k < l.declared.length, slots (l.cell k) = cells k
  self  : a.setting.receiver?.isSome → slots 0 = a.self

variable {a} {names : Names} {cells slots : Nat → V} {l : Layout} {kind : Routine.Kind}

theorem length_evalAll (h : a.evalAll names cells es s = some (vs, s')) :
    vs.length = es.length := by
  induction es generalizing vs s
  case nil =>
    rw [evalAll] at h
    cases h
    rfl
  case cons e es ih =>
    simp only [evalAll, bind_eq_bind, bind_eq_some_iff] at h
    obtain ⟨⟨v, s₁⟩, -, ⟨vs', s₂⟩, hrest, h⟩ := h
    cases h
    rw [length_cons, length_cons, ih hrest]

theorem Finds.perform_receiver (hf : a.Finds kind l names) (hh : a.Holds l cells slots)
    (hr : a.setting.receiver?.isSome) (loc : Location) (stack : List V) (s : S) :
    ((a.site kind).receiver (l.slots names) loc).act a.meaning ⟨stack, slots, s⟩ =
      some ⟨a.self :: stack, slots, s⟩ := by
  rw [Site.receiver, hf.receiver hr, act_load, hh.self hr]

theorem referent_of_find? (h : names.find? name = some b) :
    a.referent names name = .cell b.cell := by
  rw [referent, h]

theorem Finds.cell_lt (hf : a.Finds kind l names) (h : a.referent names name = .cell k) :
    k < l.declared.length := by
  cases hb : names.find? name
  case none =>
    rw [referent, hb] at h
    cases hc : a.className <;> simp only [hc] at h
    case none => cases h
    case some => split at h <;> cases h
  case some b =>
    rw [referent_of_find? hb] at h
    cases h
    exact hf.cells name b hb

theorem className_of_field {className : String} (h : a.referent names name = .field className) :
    a.className = some className := by
  rw [referent] at h
  cases hb : names.find? name <;> cases hc : a.className <;>
    simp only [hb, hc, reduceCtorEq] at h
  split at h <;> cases h
  rfl

theorem receiver_of_field {className : String}
    (ht : (a.environment names).variableType name = .ok type)
    (h : a.referent names name = .field className) : a.setting.receiver?.isSome := by
  obtain ⟨symbol, hs, -, -, hreceiver⟩ := symbol_of_variableType ht
  refine hreceiver ?_
  rw [referent, hs] at h
  cases hb : names.find? name <;> cases hc : a.className <;>
    simp only [hb, hc, reduceCtorEq] at h
  split at h
  case isTrue hk => simpa using hk
  case isFalse => cases h

theorem Finds.perform_read (hf : a.Finds kind l names) (hh : a.Holds l cells slots)
    (hn : Token.IsName name) (ht : (a.environment names).variableType name = .ok type)
    (he : a.read names cells name s = some (v, s')) (stack : List V) :
    perform a.meaning ((a.site kind).value (l.slots names) (.variable m name))
      ⟨stack, slots, s⟩ = some ⟨v :: stack, slots, s'⟩ := by
  rw [Site.value, hf.stored name type hn ht]
  rw [read] at he
  cases hr : a.referent names name <;> simp only [hr] at he <;> simp only [Layout.storage]
  case cell k =>
    cases he
    rw [perform_cons, act_load, hh.cells k (hf.cell_lt hr)]
    rfl
  case field className =>
    rw [perform_cons, hf.perform_receiver hh (receiver_of_field ht hr), bind_some,
      perform_cons, act_getField, he]
    rfl
  case global =>
    rw [perform_cons, act_loadGlobal, he]
    rfl

theorem reverse_append_cons (vs : List V) (v : V) (stack : List V) :
    vs.reverse ++ v :: stack = (v :: vs).reverse ++ stack := by
  simp

theorem receiver_of_type (h : (a.environment names).receiverType = .ok type) :
    a.setting.receiver?.isSome := by
  have hreceiver : (a.environment names).receiver? = a.setting.receiver? := rfl
  rw [Environment.receiverType, hreceiver] at h
  cases hr : a.setting.receiver?
  case none =>
    rw [hr] at h
    cases h
  case some => rfl

theorem Finds.isClassName_of_named (hf : a.Finds kind l names) {mark : Mark} {className : String}
    (hform : object.Formed Token.IsName)
    (h : (a.environment names).namedClass? object = some (mark, className)) :
    (a.site kind).isClassName (l.slots names) object = true := by
  obtain ⟨rfl, hany⟩ := Environment.namedClass?_some h
  obtain ⟨symbol, hs, hclass⟩ := (any_eq_true _ _).mp hany
  have hkind : symbol.kind = .classDef := by simpa [Symbol.isClass] using hclass
  rw [hf.classes mark className symbol hform hs (by simp [Symbol.signature?, hkind]), hclass]

theorem Finds.isClassName_of_typed (hf : a.Finds kind l names) (hform : object.Formed Token.IsName)
    (ht : object.Typed a.program (a.environment names)) :
    (a.site kind).isClassName (l.slots names) object = false := by
  cases object <;> try rfl
  case «variable» m name =>
    obtain ⟨symbol, hs, hvalue, -⟩ := symbol_of_variableType ht
    have hsignature : symbol.signature? = none ∧ symbol.isClass = false := by
      rw [Symbol.hasValue] at hvalue
      cases hk : symbol.kind <;> simp_all [Symbol.signature?, Symbol.isClass]
    rw [hf.classes m name symbol hform hs hsignature.1, hsignature.2]

theorem site_program : (a.site kind).program = a.program :=
  rfl

section Calls

variable {args : List Expr} {className : String}

-- The code of some arguments leaves their values on the stack.
def Supplies (a : Activation V S) (kind : Routine.Kind) (l : Layout) (names : Names)
    (cells : Nat → V) (slots : Nat → V) (args : List Expr) : Prop :=
  ∀ s vs s' stack, a.evalAll names cells args s = some (vs, s') →
    perform a.meaning ((a.site kind).values (l.slots names) args) ⟨stack, slots, s⟩ =
      some ⟨vs.reverse ++ stack, slots, s'⟩

theorem Finds.perform_call (hf : a.Finds kind l names) (hh : a.Holds l cells slots)
    (hargs : a.Supplies kind l names cells slots args) (hn : Token.IsName name)
    (hroutine : (a.environment names).routine name = .ok signature) {s : S}
    (he : a.eval names cells (.call m name args) s = some (v, s')) (stack : List V) :
    perform a.meaning ((a.site kind).value (l.slots names) (.call m name args))
      ⟨stack, slots, s⟩ = some ⟨if a.program.typeOf (.call m name args) = .void then stack
        else v :: stack, slots, s'⟩ := by
  obtain ⟨htarget, hreceiver⟩ := hf.called name signature hn hroutine
  simp only [eval, bind_eq_bind, bind_eq_some_iff] at he
  obtain ⟨⟨vs, s₁⟩, hvs, he⟩ := he
  have hlength := length_evalAll hvs
  rw [Site.value, htarget]
  generalize a.target names name = routine at hreceiver he ⊢
  obtain ⟨target, takes⟩ := routine
  cases takes
  case false =>
    have he : a.meaning.call target vs s₁ = some (v, s') := he
    simp only [Bool.false_eq_true, if_false]
    rw [perform_append, hargs _ _ _ stack hvs, bind_some, perform_cons,
      act_call _ _ _ _ _ _ _ vs hlength.symm, he]
    rfl
  case true =>
    have he : a.meaning.call target (a.self :: vs) s₁ = some (v, s') := he
    have hperform := hargs _ _ _ (a.self :: stack) hvs
    rw [reverse_append_cons] at hperform
    simp only [if_true, cons_append]
    rw [perform_cons, hf.perform_receiver hh (hreceiver rfl), bind_some, perform_append,
      hperform, bind_some, perform_cons,
      act_call _ _ _ _ _ _ _ (a.self :: vs) (by simp [hlength]), he]
    rfl

theorem perform_create (hargs : a.Supplies kind l names cells slots args) {s : S}
    (he : a.eval names cells (.create m (.named className) args) s = some (v, s'))
    (stack : List V) :
    perform a.meaning ((a.site kind).value (l.slots names) (.create m (.named className) args))
      ⟨stack, slots, s⟩ = some ⟨v :: stack, slots, s'⟩ := by
  simp only [eval, bind_eq_bind, bind_eq_some_iff] at he
  obtain ⟨⟨x, s₁⟩, hx, ⟨vs, s₂⟩, hvs, s₃, hs₃, he⟩ := he
  cases he
  have hlength := length_evalAll hvs
  have hperform := hargs _ _ _ (x :: x :: stack) hvs
  rw [reverse_append_cons] at hperform
  simp only [Site.value, cons_append]
  rw [perform_cons, act_create, hx, map_some, bind_some, perform_cons, act_dup,
    bind_some, perform_append, hperform, bind_some, perform_cons,
    act_construct _ _ _ _ _ _ _ (x :: vs) (by simp [hlength]), hs₃]
  rfl

theorem Finds.perform_named (hf : a.Finds kind l names)
    (hargs : a.Supplies kind l names cells slots args) (hform : object.Formed Token.IsName)
    (hclass : a.program.typeOf object = .object className) {mark : Mark} {owner : String}
    (hnamed : (a.environment names).namedClass? object = some (mark, owner)) {s : S}
    (he : a.eval names cells (.invoke m object name args) s = some (v, s')) (stack : List V) :
    perform a.meaning ((a.site kind).value (l.slots names) (.invoke m object name args))
      ⟨stack, slots, s⟩ = some ⟨if a.program.typeOf (.invoke m object name args) = .void then stack
        else v :: stack, slots, s'⟩ := by
  simp only [eval, hclass, hnamed, isSome_some, if_true] at he
  obtain ⟨⟨vs, s₁⟩, hvs, he⟩ := bind_eq_some_iff.mp he
  have hlength := length_evalAll hvs
  simp only [Site.value, site_program, hclass, hf.isClassName_of_named hform hnamed, if_true]
  rw [perform_append, hargs _ _ _ stack hvs, bind_some, perform_cons,
    act_call _ _ _ _ _ _ _ vs hlength.symm, he]
  rfl

theorem Finds.perform_invoke (hf : a.Finds kind l names)
    (hobject : ∀ s x s', a.eval names cells object s = some (x, s') → ∀ stack,
      perform a.meaning ((a.site kind).value (l.slots names) object) ⟨stack, slots, s⟩ =
        some ⟨x :: stack, slots, s'⟩)
    (hargs : a.Supplies kind l names cells slots args) (hform : object.Formed Token.IsName)
    (ht : object.Typed a.program (a.environment names))
    (hclass : a.program.typeOf object = .object className)
    (hnamed : (a.environment names).namedClass? object = none) {s : S}
    (he : a.eval names cells (.invoke m object name args) s = some (v, s')) (stack : List V) :
    perform a.meaning ((a.site kind).value (l.slots names) (.invoke m object name args))
      ⟨stack, slots, s⟩ = some ⟨if a.program.typeOf (.invoke m object name args) = .void then stack
        else v :: stack, slots, s'⟩ := by
  have hstatic : (a.site kind).isStatic className name = a.isStatic names className name := by
    rw [isStatic, hf.members]
    rfl
  simp only [eval, hclass, hnamed, isSome_none, Bool.false_eq_true, if_false] at he
  obtain ⟨⟨x, s₁⟩, hx, he⟩ := bind_eq_some_iff.mp he
  obtain ⟨⟨vs, s₂⟩, hvs, he⟩ := bind_eq_some_iff.mp he
  have hlength := length_evalAll hvs
  have hperform := hobject _ _ _ hx stack
  simp only [Site.value, site_program, hclass, hstatic, hf.isClassName_of_typed hform ht,
    Bool.false_eq_true, if_false]
  cases hs : a.isStatic names className name <;> simp only [hs] at he
  case true =>
    -- The object is dropped.
    have he : a.meaning.call (fullName (some className) name) vs s₂ = some (v, s') := he
    rw [if_pos rfl, perform_append, perform_append, hperform, bind_some, perform_cons,
      act_pop, bind_some, hargs _ _ _ stack hvs, bind_some, perform_cons,
      act_call _ _ _ _ _ _ _ vs hlength.symm, he]
    rfl
  case false =>
    have he : a.meaning.call (fullName (some className) name) (x :: vs) s₂ = some (v, s') := he
    have hcall := hargs _ _ _ (x :: stack) hvs
    rw [reverse_append_cons] at hcall
    rw [if_neg (by simp), perform_append, perform_append, hperform, bind_some, hcall,
      bind_some, perform_cons, act_call _ _ _ _ _ _ _ (x :: vs) (by simp [hlength]), he]
    rfl

end Calls

mutual

theorem perform_value (hf : a.Finds kind l names) (hh : a.Holds l cells slots) (e : Expr)
    (hform : e.Formed Token.IsName) (ht : e.Typed a.program (a.environment names))
    (hv : ∀ p ∈ e.operands, a.program.typeOf p ≠ .void) {s : S}
    (he : a.eval names cells e s = some (v, s')) (stack : List V) :
    perform a.meaning ((a.site kind).value (l.slots names) e) ⟨stack, slots, s⟩ =
      some ⟨if a.program.typeOf e = .void then stack else v :: stack, slots, s'⟩ := by
  have hpushed (hc : e.isCall = false) :
      (if a.program.typeOf e = .void then stack else v :: stack) = v :: stack :=
    if_neg (hf.valued.typeOf_ne_void ht hc)
  cases e <;> rw [Expr.Typed] at ht <;> simp only [Expr.operands, cons_append,
    forall_mem_cons, forall_mem_append] at hv
  case literal m value =>
    rw [hpushed rfl]
    rw [eval] at he
    cases he
    rfl
  case «variable» m name =>
    rw [hpushed rfl]
    rw [eval] at he
    exact hf.perform_read hh hform ht he stack
  case receiver m =>
    rw [eval] at he
    cases he
    rw [hpushed rfl, Site.value, perform_cons, hf.perform_receiver hh (receiver_of_type ht)]
    rfl
  case binary m op left right =>
    rw [hpushed rfl]
    simp only [eval, bind_eq_bind, bind_eq_some_iff] at he
    obtain ⟨⟨x, s₁⟩, hleft, ⟨y, s₂⟩, hright, he⟩ := he
    have hx := perform_value hf hh left hform.1 ht.1 hv.2.1 hleft stack
    have hy := perform_value hf hh right hform.2 ht.2.1 hv.2.2.2 hright (x :: stack)
    rw [if_neg hv.1] at hx
    rw [if_neg hv.2.2.1] at hy
    rw [Site.value, perform_append, perform_append, hx, bind_some, hy, bind_some,
      perform_cons, act_binary, site_program, he]
    rfl
  case unary m op operand =>
    rw [hpushed rfl]
    simp only [eval, bind_eq_bind, bind_eq_some_iff] at he
    obtain ⟨⟨x, s₁⟩, hoperand, he⟩ := he
    have hx := perform_value hf hh operand hform ht.1 hv.2 hoperand stack
    rw [if_neg hv.1] at hx
    rw [Site.value, perform_append, hx, bind_some, perform_cons, act_unary, site_program, he]
    rfl
  case call m name args =>
    obtain ⟨hargs, signature, hroutine, -⟩ := ht
    exact hf.perform_call hh (fun s vs s' stack hvs =>
      perform_values hf hh args hform.2 hargs hv hvs stack) hform.1 hroutine he stack
  case member m object name =>
    obtain ⟨hobject, className, symbol, hclass, -⟩ := ht
    rw [hpushed rfl]
    simp only [eval, hclass, bind_eq_bind, bind_eq_some_iff] at he
    obtain ⟨⟨x, s₁⟩, hx, he⟩ := he
    have hperform := perform_value hf hh object hform.1 hobject hv.2 hx stack
    rw [if_neg hv.1] at hperform
    simp only [Site.value, site_program, hclass]
    rw [perform_append, hperform, bind_some, perform_cons, act_getField, he]
    rfl
  case create m type args =>
    obtain ⟨hargs, className, rfl, -⟩ := ht
    rw [hpushed rfl]
    exact perform_create (fun s vs s' stack hvs =>
      perform_values hf hh args hform.2 hargs hv hvs stack) he stack
  case invoke m object name args =>
    obtain ⟨hargs, className, signature, hclass, -, -, hobject⟩ := ht
    have hsupplies : a.Supplies kind l names cells slots args := fun s vs s' stack hvs =>
      perform_values hf hh args hform.2.2 hargs hv.2.2 hvs stack
    rcases hobject with ⟨mark, hnamed, -⟩ | ⟨hnamed, hobject, -⟩
    · exact hf.perform_named hsupplies hform.1 hclass hnamed he stack
    · refine hf.perform_invoke (fun s x s' hx stack => ?_) hsupplies hform.1 hobject hclass hnamed
        he stack
      rw [perform_value hf hh object hform.1 hobject hv.2.1 hx stack, if_neg hv.1]
  case stray => exact ht.elim

theorem perform_values (hf : a.Finds kind l names) (hh : a.Holds l cells slots) (es : List Expr)
    (hform : FormedArgs Token.IsName es) (ht : TypedArgs a.program (a.environment names) es)
    (hv : ∀ p ∈ operandsOf es, a.program.typeOf p ≠ .void)
    (he : a.evalAll names cells es s = some (vs, s')) (stack : List V) :
    perform a.meaning ((a.site kind).values (l.slots names) es) ⟨stack, slots, s⟩ =
      some ⟨vs.reverse ++ stack, slots, s'⟩ := by
  cases es
  case nil =>
    rw [evalAll] at he
    cases he
    rfl
  case cons e es =>
    simp only [operandsOf, cons_append, forall_mem_cons, forall_mem_append] at hv
    simp only [evalAll, bind_eq_bind, bind_eq_some_iff] at he
    obtain ⟨⟨v, s₁⟩, hfirst, ⟨vs', s₂⟩, hrest, he⟩ := he
    cases he
    have hx := perform_value hf hh e hform.1 ht.1 hv.2.1 hfirst stack
    rw [if_neg hv.1] at hx
    rw [Site.values, perform_append, hx, bind_some,
      perform_values hf hh es hform.2 ht.2 hv.2.2 hrest, reverse_cons, append_assoc]
    rfl

end

structure Sure (a : Activation V S) (names : Names) (e : Expr) : Prop where
  formed   : e.Formed Token.IsName
  typed    : e.Typed a.program (a.environment names)
  operands : ∀ p ∈ e.operands, a.program.typeOf p ≠ .void

theorem Finds.perform_needed (hf : a.Finds kind l names) (hh : a.Holds l cells slots)
    (hs : a.Sure names e) (hv : a.program.typeOf e ≠ .void)
    (he : a.eval names cells e s = some (v, s')) (stack : List V) :
    perform a.meaning ((a.site kind).value (l.slots names) e) ⟨stack, slots, s⟩ =
      some ⟨v :: stack, slots, s'⟩ := by
  rw [perform_value hf hh e hs.formed hs.typed hs.operands he, if_neg hv]

end Activation

namespace Code

theorem Site.assign_member (site : Site) (slots : Slots) {m : Mark} {className : String}
    (hc : site.program.typeOf object = .object className) (op : Option BinaryOp) (value : Expr)
    (loc : Location) : site.assign slots (.member m object name) op value loc =
      site.value slots object ++
        (storedCode [.plain .dup (.object className) loc,
          .withOperand .getField (.symbol (fullName (some className) name))
            (site.program.typeAt m.id) loc] (site.value slots value) (site.program.typeAt m.id) op
          loc ++
        [.withOperand .putField (.symbol (fullName (some className) name))
          (site.program.typeAt m.id) loc]) := by
  simp only [assign, hc]
  cases op <;> simp [storeField, storedCode, Checked.typeOf, Expr.id?]

section Cells

variable {l : Layout}

theorem Layout.cell_lt (h : j < k) (hk : k ≤ l.declared.length) : l.cell j < l.cell k := by
  induction k
  case zero => omega
  case succ k ih =>
    have hlt : k < l.declared.length := by omega
    have hsucc := l.cell_succ (getElem?_eq_getElem hlt)
    have hwide : 0 < (l.declared[k]).2.slotWidth := by
      rw [Ty.slotWidth]
      split <;> omega
    rcases Nat.lt_succ_iff_lt_or_eq.mp h with h | rfl
    · have := ih h (by omega)
      omega
    · omega

theorem Layout.cell_injective (hj : j < l.declared.length) (hk : k < l.declared.length)
    (h : l.cell j = l.cell k) : j = k := by
  rcases Nat.lt_trichotomy j k with hlt | heq | hlt
  · have := l.cell_lt hlt (by omega)
    omega
  · exact heq
  · have := l.cell_lt hlt (by omega)
    omega

end Cells

end Code

namespace Activation

variable {V S : Type} {a : Activation V S} {names : Names} {cells slots : Nat → V} {l : Layout}
  {kind : Routine.Kind}

theorem Holds.set (hh : a.Holds l cells slots) (hl : a.setting.receiver?.isSome → 0 < l.start)
    (hk : k < l.declared.length) (v : V) :
    a.Holds l (Function.update cells k v) (Function.update slots (l.cell k) v) where
  cells j hj := by
    by_cases h : j = k
    · rw [h, Function.update_self, Function.update_self]
    · have hne : l.cell j ≠ l.cell k := fun he => h (Layout.cell_injective hj hk he)
      rw [Function.update_of_ne hne, Function.update_of_ne h, hh.cells j hj]
  self hr := by
    have hpos : 0 ≠ l.cell k := by
      have := hl hr
      rw [Layout.cell]
      omega
    rw [Function.update_of_ne hpos, hh.self hr]

theorem Finds.perform_stored (hf : a.Finds kind l names) (hh : a.Holds l cells slots)
    (hs : a.Sure names value) (hv : a.program.typeOf value ≠ .void) {read : S → Option (V × S)}
    (hold : ∀ (v : V) (s s' : S), read s = some (v, s') →
      perform a.meaning old ⟨stack, slots, s⟩ = some ⟨v :: stack, slots, s'⟩)
    (h : a.stored names cells read type op value s = some (v, s')) (loc : Location) :
    perform a.meaning
        (storedCode old ((a.site kind).value (l.slots names) value) type op loc)
        ⟨stack, slots, s⟩ = some ⟨v :: stack, slots, s'⟩ := by
  cases op
  case none => exact hf.perform_needed hh hs hv h stack
  case some op =>
    simp only [Activation.stored, bind_eq_bind, bind_eq_some_iff] at h
    obtain ⟨⟨x, s₁⟩, hx, ⟨y, s₂⟩, hy, h⟩ := h
    simp only [storedCode]
    rw [perform_append, perform_append, hold x s s₁ hx, bind_some,
      hf.perform_needed hh hs hv hy, bind_some, perform_cons, act_binary, h]
    rfl

theorem Finds.reaches (hf : a.Finds kind l names) (hn : Token.IsName name)
    (ht : (a.environment names).variableType name = .ok type) :
    (a.site kind).Reaches (l.slots names) name (some 0) := by
  intro className hfield loc
  rw [hf.stored name type hn ht] at hfield
  have hr : a.referent names name = .field className := by
    cases hr : a.referent names name <;> rw [hr] at hfield <;> cases hfield
    rfl
  have hclass : (a.site kind).className = some className := className_of_field hr
  rw [Site.receiver, hclass, hf.receiver (receiver_of_field ht hr)]

theorem perform_dup_getField (field : String) (type type' : Ty) (loc : Location) (x : V)
    (stack : List V) (v : V) (s s' : S) (h : a.meaning.getField field x s = some (v, s')) :
    perform a.meaning [.plain .dup type loc, .withOperand .getField (.symbol field) type' loc]
      ⟨x :: stack, slots, s⟩ = some ⟨v :: x :: stack, slots, s'⟩ := by
  rw [perform_cons, act_dup, bind_some, perform_cons, act_getField, h]
  rfl

theorem Finds.perform_assign {st st' : Store V S} (hf : a.Finds kind l names)
    (hh : a.Holds l st.cells slots) {target : Expr} (htarget : a.Sure names target)
    (hvalue : a.Sure names value) (hv : a.program.typeOf value ≠ .void) (loc : Location)
    (h : a.assign names target op value st = some st') (stack : List V) :
    ∃ slots', perform a.meaning ((a.site kind).assign (l.slots names) target op value loc)
        ⟨stack, slots, st.state⟩ = some ⟨stack, slots', st'.state⟩ ∧
          a.Holds l st'.cells slots' := by
  cases target <;> simp only [assign] at h <;> try cases h
  case «variable» m name =>
    have ht : (a.environment names).variableType name = .ok _ := htarget.typed
    have htype : a.program.typeOf (.variable m name) = (a.site kind).program.typeAt m.id := rfl
    rw [htype] at h
    obtain ⟨⟨v, s₁⟩, hstored, h⟩ := bind_eq_some_iff.mp h
    rw [Site.assign_variable (hf.reaches htarget.formed ht),
      hf.stored name _ htarget.formed ht]
    cases hr : a.referent names name <;> simp only [write, hr] at h <;>
      simp only [Layout.storage, Storage.write]
    case cell k =>
      cases h
      have hk := hf.cell_lt hr
      refine ⟨_, ?_, hh.set hf.start hk v⟩
      rw [perform_append, hf.perform_stored hh hvalue hv ?_ hstored, bind_some, perform_cons,
        act_store]
      · rfl
      · intro x s s' hx
        simp only [read, hr] at hx
        cases hx
        rw [perform_cons, act_load, hh.cells k hk]
        rfl
    case field className =>
      obtain ⟨s₂, hput, h⟩ := bind_eq_some_iff.mp h
      cases h
      have hself := hh.self (receiver_of_field ht hr)
      refine ⟨slots, ?_, hh⟩
      rw [cons_append, perform_cons, act_load, hself, bind_some, perform_append,
        hf.perform_stored hh hvalue hv ?_ hstored, bind_some, perform_cons, act_putField,
        hput]
      · rfl
      · intro x s s' hx
        simp only [read, hr] at hx
        exact perform_dup_getField _ _ _ loc a.self stack x s s' hx
    case global =>
      obtain ⟨s₂, hput, h⟩ := bind_eq_some_iff.mp h
      cases h
      refine ⟨slots, ?_, hh⟩
      rw [perform_append, hf.perform_stored hh hvalue hv ?_ hstored, bind_some, perform_cons,
        act_storeGlobal, hput]
      · rfl
      · intro x s s' hx
        simp only [read, hr] at hx
        rw [perform_cons, act_loadGlobal, hx]
        rfl
  case member m object name =>
    obtain ⟨hobject, className, symbol, hclass, -⟩ := htarget.typed
    have htype : a.program.typeOf (.member m object name) = (a.site kind).program.typeAt m.id := rfl
    simp only [hclass, htype] at h
    obtain ⟨⟨x, s₁⟩, hx, h⟩ := bind_eq_some_iff.mp h
    obtain ⟨⟨v, s₂⟩, hstored, h⟩ := bind_eq_some_iff.mp h
    obtain ⟨s₃, hput, h⟩ := bind_eq_some_iff.mp h
    cases h
    have hoperands := htarget.operands
    simp only [Expr.operands, forall_mem_cons] at hoperands
    have hsure : a.Sure names object := ⟨htarget.formed.1, hobject, hoperands.2⟩
    refine ⟨slots, ?_, hh⟩
    rw [Site.assign_member _ _ hclass, perform_append,
      hf.perform_needed hh hsure hoperands.1 hx, bind_some, perform_append,
      hf.perform_stored hh hvalue hv (perform_dup_getField _ _ _ loc x stack) hstored,
      bind_some, perform_cons, act_putField, hput]
    rfl

end Activation
end Lumen
