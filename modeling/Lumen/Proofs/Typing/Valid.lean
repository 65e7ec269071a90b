import Lumen.Proofs.Scoping
import Lumen.Proofs.Typing.Advance

namespace Lumen

open Typing List Analysis

structure Setting where
  program   : Checked
  table     : SymbolTable
  -- The lasting scopes around the body; the innermost comes first.
  outer     : List Nat
  receiver? : Option String
  returns   : Ty

namespace Setting

variable (g : Setting) (names : Names)

def environment : Environment where
  symbol? name :=
    match names.find? name with
    | some b => some (b.symbol g.program)
    | none => g.outer.findSome? (g.table.inScope? · name)
  member? := g.table.member?
  isClass := g.table.isClass
  receiver? := g.receiver?

-- Nothing is wrong with an expression, and the program records the types of all its parts.
def Admits (e : Expr) : Prop :=
  g.program.Keeps (infer (g.environment names) e)

structure Fills (d : Declaration) : Prop where
  known   : ∀ t ∈ d.type, writtenType g.table.isClass t = .ok (Ty.ofName t)
  ne_void : d.typeIn g.program ≠ .void
  ne_null : d.typeIn g.program ≠ .null
  admits  : ∀ e ∈ d.init, g.Admits names e
  stored  : ∀ e ∈ d.init, (d.typeIn g.program).assignable (g.program.typeOf e)

structure Declares (d : Declaration) : Prop extends g.Fills names d where
  fresh : ∀ b ∈ names.here, b.declared.name ≠ d.name

structure Decides (condition : Expr) : Prop where
  admits : g.Admits names condition
  bool   : g.program.typeOf condition = .error ∨ g.program.typeOf condition = .bool

def storedType? (target value : Ty) : Option BinaryOp → Option Ty
  | none => some value
  | some op => op.result? target value

structure Assigns (target : Expr) (op : Option BinaryOp) (value : Expr) : Prop where
  reads   : g.Admits names target
  admits  : g.Admits names value
  mutable : constantTarget? (g.environment names) g.program.types target = none
  stored  : g.program.typeOf target = .error ∨ g.program.typeOf value = .error ∨
    ∃ type, storedType? (g.program.typeOf target) (g.program.typeOf value) op = some type ∧
      (g.program.typeOf target).assignable type

def Results : Option Expr → Prop
  | none => g.returns = .void ∨ g.returns = .error
  | some value =>
    g.Admits names value ∧ (g.returns = .void → g.program.typeOf value = .error) ∧
      g.returns.assignable (g.program.typeOf value)

end Setting

section Valid

variable (g : Setting)

mutual

def Stmt.Valid (names : Names) (inLoop : Bool) : Stmt → Prop
  | .variable loc name type init => g.Declares names ⟨name, loc, type, init, false, false⟩
  | .constant loc name type value =>
    g.Declares names ⟨name, loc, some type, some value, true, false⟩
  | .block _ body => ValidBody names.enter inLoop body
  | .assign _ target op value => g.Assigns names target op value
  | .result _ value => g.Results names value
  | .branch _ condition thenBody elseBody =>
    g.Decides names condition ∧ ValidBody names.enter inLoop thenBody ∧
      ValidElse (names.skip (declarationsIn thenBody).length) inLoop elseBody
  | .whileLoop _ condition body => g.Decides names condition ∧ ValidBody names.enter true body
  | .forLoop _ init condition update body =>
    ValidStep names.enter inLoop init ∧
      (∀ e ∈ condition, g.Decides (names.enter.afterStep init) e) ∧
      ValidStep (names.enter.afterStep init) inLoop update ∧
      ValidBody (names.enter.afterStep init).enter true body
  | .breakLoop _ | .continueLoop _ => inLoop = true
  | .evaluate _ e => g.Admits names e
  | .classDef .. | .routine .. | .bare _ => False

def ValidBody (names : Names) (inLoop : Bool) : List Stmt → Prop
  | [] => True
  | s :: rest => s.Valid names inLoop ∧ ValidBody (names.after s) inLoop rest

def ValidElse (names : Names) (inLoop : Bool) : Option (List Stmt) → Prop
  | none => True
  | some body => ValidBody names.enter inLoop body

def ValidStep (names : Names) (inLoop : Bool) : Option Stmt → Prop
  | none => True
  | some s => s.Valid names inLoop

end

theorem Stmt.Valid.fills {s : Stmt} (h : s.Valid g names inLoop) (hd : s.declaration? = some d) :
    g.Fills names d := by
  cases s <;> cases hd <;> exact h.toFills

end Valid

namespace Typing

theorem writtenType_eq {isClass : String → Bool} {t : TypeName}
    (h : writtenType isClass t = .ok type) : type = Ty.ofName t := by
  unfold writtenType at h
  split at h
  · split at h <;> simp_all [Ty.ofName]
  · exact (Except.ok.inj h).symm

theorem inferInitial_eq {env : Environment} {declared : Option TypeName}
    (h : ∀ t ∈ declared, writtenType env.isClass t = .ok (Ty.ofName t)) :
    inferInitial env declared init = infer env init := by
  unfold inferInitial
  split
  · rename_i className mark created args
    have hclass : env.isClass className := by
      have hwritten := h (.named className) rfl
      unfold writtenType at hwritten
      grind
    rw [if_neg]
    rintro ⟨rfl, hn⟩
    exact hn hclass
  · rfl

namespace Analysis

def Sound (a : Analysis) : Prop :=
  ∀ p ∈ a.problems, p.cause.severity = .warning

namespace Sound

variable {a a' : Analysis}

theorem of_subset (hs : a'.Sound) (h : a.problems ⊆ a'.problems) : a.Sound :=
  fun p hp => hs p (h hp)

theorem of_advances {H : Nat → Prop} (hs : a'.Sound) (h : a.Advances H ids es a') : a.Sound :=
  hs.of_subset h.problems

theorem of_leave (hs : (a.leave place).Sound) : a.Sound :=
  hs.of_subset (problems_leave place a ▸ List.Subset.refl _)

theorem not_report {cause : Cause} (h : cause.kind ≠ .missingReturn) :
    ¬(a.report cause loc).Sound := by
  intro hs
  have hw := hs ⟨cause, loc⟩ mem_cons_self
  simp [severity_eq_error h] at hw

theorem of_reportIf {cause : Cause} (h : cause.kind ≠ .missingReturn)
    (hs : (a.reportIf wrong cause loc).Sound) : wrong = false ∧ a.Sound := by
  cases wrong
  case false => exact ⟨rfl, hs⟩
  case true => exact absurd hs (not_report h)

theorem of_record (hs : (a.record f).Sound) (hf : f.Severe) : f.problems = [] ∧ a.Sound := by
  obtain ⟨hown, ha⟩ := forall_mem_append.mp hs
  refine ⟨eq_nil_iff_forall_not_mem.mpr fun p hp => ?_, ha⟩
  have hw := hown p (mem_reverse.mpr hp)
  simp [severity_eq_error (Cause.kind_ne_missingReturn (hf p hp))] at hw

theorem of_typeOf {type : TypeName} (hs : (a.typeOf type loc).2.Sound) :
    a.typeOf type loc = (Ty.ofName type, a) ∧
      writtenType a.table.isClass type = .ok (Ty.ofName type) := by
  unfold typeOf at hs ⊢
  cases h : writtenType a.table.isClass type
  case ok t =>
    rw [writtenType_eq h]
    exact ⟨rfl, rfl⟩
  case error cause =>
    rw [h] at hs
    exact absurd hs (not_report (Cause.kind_ne_missingReturn (writtenType_strict _ type cause h)))

theorem of_variableType (hs : (a.variableType name value loc).2.Sound) :
    value ≠ .void ∧ value ≠ .null ∧ a.variableType name value loc = (value, a) := by
  unfold variableType at hs ⊢
  split at hs
  · exact absurd hs (not_report (by simp [Cause.kind]))
  · exact absurd hs (not_report (by simp [Cause.kind]))
  · exact ⟨‹_›, ‹_›, rfl⟩

theorem of_declareIn (hs : (a.declareIn i symbol).Sound) : a.table.inScope? i symbol.name = none ∧
      a.declareIn i symbol = { a with table := a.table.insert i symbol } := by
  unfold declareIn at hs ⊢
  split at hs
  case h_1 => exact absurd hs (not_report (by simp [Cause.kind]))
  case h_2 hn => simp [hn]

theorem of_declare_block (hb : a.blocks = block :: outer) (hs : (a.declare place symbol).Sound) :
    block.get? symbol.name = none ∧
      a.declare place symbol = { a with blocks := block.insert symbol :: outer } := by
  simp only [declare, hb] at hs ⊢
  split at hs
  case h_1 => exact absurd hs (not_report (by simp [Cause.kind]))
  case h_2 hn => simp [hn]

end Sound
end Analysis
end Typing
end Lumen
