import Lumen.Proofs.Code.Globals
import Lumen.Proofs.Code.Occurrences

namespace Lumen

open Typing List Option

namespace Typing.Environment

variable {env : Environment} {className name : String} {signature : Signature}

-- What a plain call can name: a method that is not static needs a receiver.
theorem symbol_of_routine (h : env.routine name = .ok signature) :
    ∃ symbol, env.symbol? name = some symbol ∧ symbol.kind = .routine signature ∧
      (symbol.home = .classBody → signature.isStatic = false → env.receiver?.isSome) := by
  rw [routine] at h
  cases hs : env.symbol? name <;> simp only [hs, reduceCtorEq] at h
  case some symbol =>
    cases hk : symbol.kind <;> simp only [hk, reduceCtorEq] at h
    case routine found =>
      split at h
      case isTrue => cases h
      case isFalse hallowed =>
        cases h
        refine ⟨symbol, rfl, hk, fun hhome hstatic => ?_⟩
        cases hr : env.receiver?
        case none => exact absurd ⟨hhome, by simp [hstatic], by simp [hr]⟩ hallowed
        case some => rfl

theorem symbol_of_method (h : env.method className name = .ok signature) :
    ∃ symbol, env.member? className name = some symbol ∧ symbol.kind = .routine signature := by
  rw [method] at h
  cases hs : env.member? className name <;> simp only [hs, reduceCtorEq] at h
  case some symbol =>
    cases hk : symbol.kind <;> simp only [hk, reduceCtorEq] at h
    case routine found =>
      cases h
      exact ⟨symbol, rfl, hk⟩

theorem method_of_static (h : env.staticMethod className name = .ok signature) :
    env.method className name = .ok signature ∧ signature.isStatic = true := by
  rw [staticMethod] at h
  split at h
  case h_1 found hmethod =>
    split at h
    case isTrue hstatic =>
      cases h
      exact ⟨hmethod, hstatic⟩
    case isFalse => cases h
  case h_2 => cases h

end Typing.Environment

namespace Code

inductive Callable (c : Checked) : String → Nat → Prop
  | builtIn {name : String} (h : name ∈ builtIns) : Callable c name 1
  | routine {className : Option String} {loc : Location} {name : String} {params : List Param}
      {returns : TypeName} {isStatic : Bool} {body : List Stmt}
      (h : c.Defines className (.routine loc name params returns isStatic body)) :
      Callable c (fullName className name)
        (params.length + if (if isStatic then none else className).isSome then 1 else 0)

def DefinesClass (c : Checked) (className : String) : Prop :=
  ∃ loc fields methods, .classDef loc className fields methods ∈ c.items

def DefinesField (c : Checked) (className name : String) : Prop :=
  ∃ loc fields methods, .classDef loc className fields methods ∈ c.items ∧
    ∃ f ∈ fields, f.name = name

@[simp] def Opcode.names : Opcode → Bool
  | .call | .construct | .getField | .putField | .load | .store => true
  | _ => false

namespace Instruction

structure Refers (c : Checked) (i : Instruction) : Prop where
  call      : i.opcode = .call → ∃ target count, i.operand = some (.call target count) ∧
    Callable c target count
  construct : i.opcode = .construct → ∃ className count, DefinesClass c className ∧
    i.operand = some (.call (fullName (some className) constructorName) count)
  field     : i.opcode = .getField ∨ i.opcode = .putField → ∃ className name,
    DefinesField c className name ∧ i.operand = some (.symbol (fullName (some className) name))
  access    : i.opcode = .load ∨ i.opcode = .store → i.slot = none →
    ∃ d ∈ c.globals, i.operand = some (.symbol d.name)

variable {c : Checked}

theorem refers_of_names {i : Instruction} (h : ¬i.opcode.names) : i.Refers c := by
  constructor <;> intro ho <;> simp_all <;> rcases ho with ho | ho <;> simp_all

@[simp] theorem refers_plain (opcode : Opcode) (type : Ty) (loc : Location)
    (h : ¬opcode.names) : (plain opcode type loc).Refers c :=
  refers_of_names h

@[simp] theorem refers_binary (op : BinaryOp) (type : Ty) (loc : Location) :
    (plain (.ofBinary op) type loc).Refers c := by
  cases op <;> simp [Opcode.ofBinary]

@[simp] theorem refers_unary (op : UnaryOp) (type : Ty) (loc : Location) :
    (plain (.ofUnary op) type loc).Refers c := by
  cases op <;> simp [Opcode.ofUnary]

@[simp] theorem refers_withOperand (opcode : Opcode) (operand : Operand) (type : Ty)
    (loc : Location) (h : ¬opcode.names) : (withOperand opcode operand type loc).Refers c :=
  refers_of_names h

@[simp] theorem refers_place (label : Nat) (loc : Location) : (place label loc).Refers c :=
  refers_of_names (by simp [place, withOperand])

@[simp] theorem refers_jump (opcode : Opcode) (label : Nat) (loc : Location)
    (h : ¬opcode.names) : (jump opcode label loc).Refers c :=
  refers_of_names h

theorem refers_call {target : String} {count : Nat} (h : Callable c target count) (type : Ty)
    (loc : Location) : (withOperand .call (.call target count) type loc).Refers c := by
  refine ⟨fun _ => ⟨target, count, rfl, h⟩, ?_, ?_, ?_⟩ <;> simp [withOperand]

theorem refers_construct (h : DefinesClass c className) (count : Nat) (type : Ty) (loc : Location) :
    (withOperand .construct (.call (fullName (some className) constructorName) count) type
      loc).Refers c := by
  refine ⟨?_, fun _ => ⟨className, count, h, rfl⟩, ?_, ?_⟩ <;> simp [withOperand]

theorem refers_field {className name : String} (h : DefinesField c className name)
    {opcode : Opcode} (ho : opcode = .getField ∨ opcode = .putField) (type : Ty) (loc : Location) :
    (withOperand opcode (.symbol (fullName (some className) name)) type loc).Refers c := by
  refine ⟨?_, ?_, fun _ => ⟨className, name, h, rfl⟩, ?_⟩ <;>
    rcases ho with rfl | rfl <;> simp [withOperand]

theorem refers_access {name : String} {opcode : Opcode} (ho : opcode = .load ∨ opcode = .store)
    {slot : Option Nat} (h : slot = none → ∃ d ∈ c.globals, d.name = name) (type : Ty)
    (loc : Location) : (access opcode name type slot loc).Refers c := by
  refine ⟨?_, ?_, ?_, fun _ hslot => ?_⟩
  · rcases ho with rfl | rfl <;> simp [access]
  · rcases ho with rfl | rfl <;> simp [access]
  · rcases ho with rfl | rfl <;> simp [access]
  · obtain ⟨d, hd, rfl⟩ := h hslot
    exact ⟨d, hd, rfl⟩

theorem refers_slot {opcode : Opcode} (ho : opcode = .load ∨ opcode = .store) (name : String)
    (type : Ty) (slot : Nat) (loc : Location) :
    (access opcode name type (some slot) loc).Refers c :=
  refers_access ho (fun h => by cases h) type loc

end Instruction

open Instruction

def Refer (c : Checked) (code : List Instruction) : Prop :=
  ∀ i ∈ code, i.Refers c

namespace Refer

variable {c : Checked} {code rest : List Instruction} {i : Instruction}

@[simp] theorem nil : Refer c [] := by
  simp [Refer]

@[simp] theorem cons_iff : Refer c (i :: code) ↔ i.Refers c ∧ Refer c code :=
  forall_mem_cons

@[simp] theorem append_iff : Refer c (code ++ rest) ↔ Refer c code ∧ Refer c rest :=
  forall_mem_append

end Refer

-- What names stand for at a place is what code can refer to.
structure Site.Means (site : Site) (env : Environment) : Prop where
  routine : ∀ name signature, env.routine name = .ok signature →
    Callable site.program (site.target name).1
      (signature.params.length + if (site.target name).2 then 1 else 0) ∧
    ((site.target name).2 → env.receiver?.isSome)
  method  : ∀ className name signature, env.method className name = .ok signature →
    Callable site.program (fullName (some className) name)
      (signature.params.length + if signature.isStatic then 0 else 1) ∧
    site.isStatic className name = signature.isStatic
  created : ∀ className, env.isClass className → DefinesClass site.program className
  members : env.member? = site.symbols.member?
  field   : ∀ className name symbol, site.symbols.member? className name = some symbol →
    symbol.kind = .field → DefinesField site.program className name
  global  : ∀ name symbol, env.symbol? name = some symbol → symbol.kind = .variable →
    symbol.home = .global → ∃ d ∈ site.program.globals, d.name = name

def Site.Admits (site : Site) (slots : Slots) (e : Expr) : Prop :=
  ∃ env given rows, site.Knows slots env given rows ∧ site.Means env ∧ e.Formed Token.IsName ∧
    e.Typed site.program env ∧ site.program.isFaulty e = false

section Values

variable {site : Site} {slots : Slots} {env : Environment} {given : List Allotment}
  {rows : List Local}

theorem Site.field_of_storage {name className : String}
    (h : site.storage slots name = .field className) :
    ∃ symbol, site.symbols.member? className name = some symbol ∧ symbol.kind = .field := by
  rw [storage] at h
  split at h
  case h_1 => cases h
  case h_2 =>
    split at h
    case h_1 owner hc =>
      split at h
      case isTrue hany =>
        cases h
        obtain ⟨symbol, hs, hk⟩ := (any_eq_true _ _).mp hany
        rw [memberHere?, hc, bind_some] at hs
        exact ⟨symbol, hs, by simpa using hk⟩
      case isFalse => cases h
    case h_2 => cases h

section

variable (hk : site.Knows slots env given rows)

include hk

theorem Site.receiver_refers (hr : env.receiver?.isSome)
    (loc : Location) : (site.receiver slots loc).Refers site.program := by
  rw [receiver, hk.receiver hr]
  exact refers_slot (.inl rfl) _ _ _ _

theorem Site.access_refers (hm : site.Means env)
    {name : String} {type : Ty} (hn : Token.IsName name) (ht : env.variableType name = .ok type)
    (hne : type ≠ .error) :
    site.Reaches slots name (some 0) ∧
      (∀ loc, Refer site.program ((site.storage slots name).read (some 0) name type loc)) ∧
      ∀ op value loc, Refer site.program value →
        Refer site.program ((site.storage slots name).write (some 0) name type op value loc) := by
  obtain ⟨hreach, symbol, hs, rfl, hstored⟩ := hk.finds hn ht hne
  refine ⟨hreach, ?_⟩
  cases hstorage : site.storage slots name
  case slot n =>
    refine ⟨fun loc => by simp [Storage.read, refers_slot], fun op value loc hvalue => ?_⟩
    cases op <;> simp [Storage.write, storedCode, refers_slot, hvalue]
  case field className =>
    obtain ⟨found, hmember, hkind⟩ := Site.field_of_storage hstorage
    have hfield := hm.field className name found hmember hkind
    refine ⟨fun loc => by simp [Storage.read, refers_slot, refers_field hfield],
      fun op value loc hvalue => ?_⟩
    cases op <;> simp [Storage.write, storedCode, refers_slot, refers_field hfield, hvalue]
  case global =>
    rw [hstorage] at hstored
    obtain ⟨hkind, hhome, -⟩ := hstored.global.mp rfl
    have hglobal := hm.global name symbol hs hkind hhome
    refine ⟨fun loc => by simp [Storage.read, refers_access, hglobal],
      fun op value loc hvalue => ?_⟩
    cases op <;> simp [Storage.write, storedCode, refers_access, hglobal, hvalue]

theorem Site.isClassName_of_typed {e : Expr}
    (hf : e.Formed Token.IsName) (ht : e.Typed site.program env) :
    site.isClassName slots e = false := by
  cases e <;> try rfl
  case «variable» m name =>
    rw [Expr.Typed] at ht
    obtain ⟨symbol, hs, hvalue, -, -⟩ := symbol_of_variableType ht
    have hsignature : symbol.signature? = none := by
      cases hkind : symbol.kind <;> simp_all [Symbol.hasValue, Symbol.signature?]
    rw [hk.classes m name symbol hf hs hsignature]
    cases hkind : symbol.kind <;> simp_all [Symbol.hasValue, Symbol.isClass]

-- What names a class at a place names it for the code, too.
theorem Site.isClassName_of_named {e : Expr}
    (hf : e.Formed Token.IsName) {mark : Mark} {className : String}
    (h : env.namedClass? e = some (mark, className)) : site.isClassName slots e = true := by
  obtain ⟨rfl, hany⟩ := Environment.namedClass?_some h
  obtain ⟨symbol, hs, hclass⟩ := (any_eq_true _ _).mp hany
  have hkind : symbol.kind = .classDef := by simpa [Symbol.isClass] using hclass
  rw [hk.classes _ _ symbol hf hs (by simp [Symbol.signature?, hkind]), hclass]

end

mutual

theorem Site.value_refers (hk : site.Knows slots env given rows) (hm : site.Means env) (e : Expr)
    (hf : e.Formed Token.IsName) (ht : e.Typed site.program env)
    (hn : site.program.isFaulty e = false) : Refer site.program (site.value slots e) := by
  cases e <;> rw [Expr.Typed] at ht <;> simp only [Checked.isFaulty, Bool.or_eq_false_iff] at hn
  case literal m v => simp [Site.value]
  case «variable» m name =>
    obtain ⟨hreach, hread, -⟩ := Site.access_refers hk hm hf ht
      (Ty.isError_iff.not.mp (by simp [hn]))
    rw [Site.value_variable hreach]
    exact hread m.loc
  case receiver m =>
    rw [Environment.receiverType] at ht
    have hr : env.receiver?.isSome := by cases hr : env.receiver? <;> simp_all
    simp [Site.value, Site.receiver_refers hk hr]
  case binary m op left right =>
    have hleft := Site.value_refers hk hm left hf.1 ht.1 hn.1.2
    have hright := Site.value_refers hk hm right hf.2 ht.2.1 hn.2
    simp [Site.value, hleft, hright]
  case unary m op operand =>
    simp [Site.value, Site.value_refers hk hm operand hf ht.1 hn.2]
  case call m name args =>
    obtain ⟨hargs, signature, hroutine, hlength, -⟩ := ht
    have hvalues := Site.values_refers hk hm args hf.2 hargs hn.2
    obtain ⟨hcall, hreceiver⟩ := hm.routine name signature hroutine
    rw [← hlength] at hcall
    simp only [Site.value]
    split
    case isTrue htakes =>
      rw [if_pos htakes] at hcall
      simp [hvalues, refers_call hcall, Site.receiver_refers hk (hreceiver htakes)]
    case isFalse hplain =>
      rw [if_neg hplain, Nat.add_zero] at hcall
      simp [hvalues, refers_call hcall]
  case invoke m object name args =>
    obtain ⟨hargs, className, signature, hclass, hlength, -, hobject⟩ := ht
    have hvalues := Site.values_refers hk hm args hf.2.2 hargs hn.2
    simp only [Site.value, hclass]
    rcases hobject with ⟨mark, hnamed, hstatic⟩ | ⟨hnamed, hobject, hmethod⟩
    case inl =>
      -- The class is named, and the method is static.
      obtain ⟨hmethod, hisStatic⟩ := Environment.method_of_static hstatic
      have hcall := (hm.method className name signature hmethod).1
      rw [hisStatic, if_pos rfl, ← hlength, Nat.add_zero] at hcall
      rw [if_pos (Site.isClassName_of_named hk hf.1 hnamed)]
      simp [hvalues, refers_call hcall]
    case inr =>
      obtain ⟨hcall, hisStatic⟩ := hm.method className name signature hmethod
      have hvalue := Site.value_refers hk hm object hf.1 hobject hn.1.2
      rw [Site.isClassName_of_typed hk hf.1 hobject, if_neg Bool.false_ne_true, hisStatic]
      rw [← hlength] at hcall
      split
      case isTrue hs =>
        rw [if_pos hs, Nat.add_zero] at hcall
        simp [hvalue, hvalues, refers_call hcall]
      case isFalse hs =>
        rw [if_neg hs] at hcall
        simp [hvalue, hvalues, refers_call hcall]
  case member m object name =>
    obtain ⟨hobject, className, symbol, hclass, hmember, hkind, -⟩ := ht
    have hfield := hm.field className name symbol (hm.members ▸ hmember) hkind
    simp [Site.value, hclass, Site.value_refers hk hm object hf.1 hobject hn.2, refers_field hfield]
  case create m type args =>
    obtain ⟨hargs, className, rfl, hclass, -⟩ := ht
    have hvalues := Site.values_refers hk hm args hf.2 hargs hn.2
    simp [Site.value, hvalues, refers_construct (hm.created className hclass)]
  case stray => exact ht.elim

theorem Site.values_refers (hk : site.Knows slots env given rows) (hm : site.Means env)
    (es : List Expr) (hf : FormedArgs Token.IsName es) (ht : TypedArgs site.program env es)
    (hn : site.program.anyFaulty es = false) : Refer site.program (site.values slots es) := by
  cases es
  case nil => exact .nil
  case cons e es =>
    simp only [Checked.anyFaulty, Bool.or_eq_false_iff] at hn
    simp [Site.values, Site.value_refers hk hm e hf.1 ht.1 hn.1,
      Site.values_refers hk hm es hf.2 ht.2 hn.2]

end

theorem Site.Admits.refers (h : site.Admits slots e) : Refer site.program (site.value slots e) := by
  obtain ⟨env, given, rows, hk, hm, hf, ht, hn⟩ := h
  exact Site.value_refers hk hm e hf ht hn

end Values

section Statements

variable {site : Site} {slots : Slots} {f : Frame}

theorem Site.declaration_refers {name : String} {type : Ty} (hi : ∀ e ∈ init, site.Admits f.slots e)
    (hs : (site.declare f name type).1.isSome) (loc : Location) :
    Refer site.program (site.declaration f name type init loc).1 := by
  cases init
  case none => exact .nil
  case some e =>
    obtain ⟨n, hn⟩ := isSome_iff_exists.mp hs
    simp [declaration, hn, (hi e rfl).refers, refers_slot]

theorem Site.storeField_refers {className name : String} {value : Expr}
    (hfield : DefinesField site.program className name) (hv : site.Admits slots value) (type : Ty)
    (op : Option BinaryOp) (loc : Location) :
    Refer site.program (site.storeField slots className name type op value loc) := by
  cases op <;> simp [storeField, hv.refers, refers_field hfield]

theorem Site.assign_refers {target value : Expr} (ht : site.Admits slots target)
    (hv : site.Admits slots value) (op : Option BinaryOp) (loc : Location) :
    Refer site.program (site.assign slots target op value loc) := by
  obtain ⟨env, given, rows, hk, hm, hf, htyped, hn⟩ := ht
  cases target <;> try exact .nil
  case «variable» m name =>
    rw [Expr.Typed] at htyped
    have hne := site.program.typeAt_ne_error _ hn m.id (by simp [Expr.ids])
    obtain ⟨hreach, -, hwrite⟩ := Site.access_refers hk hm hf htyped hne
    rw [Site.assign_variable hreach]
    exact hwrite op _ loc hv.refers
  case member m object name =>
    rw [Expr.Typed] at htyped
    obtain ⟨hobject, className, symbol, hclass, hmember, hkind, -⟩ := htyped
    simp only [Checked.isFaulty, Bool.or_eq_false_iff] at hn
    have hfield := hm.field className name symbol (hm.members ▸ hmember) hkind
    simp [Site.assign, hclass, Site.value_refers hk hm object hf.1 hobject hn.2,
      Site.storeField_refers hfield hv]

theorem Site.result_refers {value : Option Expr} (hv : ∀ e ∈ value, site.Admits slots e)
    (loc : Location) : Refer site.program (site.result slots value loc) := by
  cases value
  case none => simp [result]
  case some e => simp [result, (hv e rfl).refers]

theorem Site.evaluate_refers (he : site.Admits slots e) (loc : Location) :
    Refer site.program (site.evaluate slots e loc) := by
  rw [evaluate]
  split
  · exact he.refers
  · simp [he.refers]

structure Piece.Admissible (site : Site) (p : Piece) : Prop where
  looked : ∀ q ∈ p.looked, site.Admits q.1 q.2
  given  : ∀ a ∈ p.given, a.slot.isSome

theorem Site.stmt_refers (h : (Piece.mk [] site loop f s).Admissible site)
    (hb : s.hasBody = false) :
    Refer site.program (site.stmt loop f s).1 := by
  cases s <;> try cases hb
  case «variable» loc name type init =>
    refine declaration_refers (fun e he => h.looked (f.slots, e) (by simpa [Piece.looked] using he))
      ?_ loc
    have hslot := h.given _ (mem_singleton.mpr rfl)
    cases type <;> cases init <;> exact hslot
  case constant loc name type value =>
    refine declaration_refers (fun e he => ?_) (h.given _ (mem_singleton.mpr rfl)) loc
    cases he
    exact h.looked (f.slots, value) (by simp [Piece.looked])
  case assign loc target op value =>
    exact assign_refers (h.looked (f.slots, target) (by simp [Piece.looked]))
      (h.looked (f.slots, value) (by simp [Piece.looked])) op loc
  case result loc value =>
    exact result_refers (fun e he => h.looked (f.slots, e) (by simpa [Piece.looked] using he)) loc
  case evaluate loc e => exact evaluate_refers (h.looked (f.slots, e) (by simp [Piece.looked])) loc
  case breakLoop | continueLoop =>
    cases loop
    case none => exact .nil
    case some => simp [stmt]
  all_goals exact .nil

theorem Site.Builds.refers
    (h : site.Builds (fun loop f s => (Piece.mk [] site loop f s).Admissible site) f ps code f') :
    Refer site.program code := by
  induction h
  case nil => exact .nil
  case append hfirst hrest => exact Refer.append_iff.mpr ⟨hfirst, hrest⟩
  case place | jump => simp
  case condition hs he hl label loc => simp [(hs.looked _ hl).refers]
  case plain hs hb => exact stmt_refers hs hb
  case nested hcode => exact hcode
  case label hcode => exact hcode
  case inBlock hcode => exact hcode

theorem Site.stmts_refers (site : Site) (loop : Option Loop) (f : Frame) (body : List Stmt)
    (h : ∀ p ∈ site.pieces loop f body, p.Admissible site) :
    Refer site.program (site.stmts loop f [] body).1 := by
  refine (stmts_builds loop f body fun p hp => ?_).refers
  obtain ⟨before, other, loop', f', s⟩ := p
  obtain ⟨rfl, -⟩ : other = site ∧ _ := site.stmts_placed loop f body _ hp
  exact ⟨(h _ hp).looked, (h _ hp).given⟩

end Statements

end Code
end Lumen
