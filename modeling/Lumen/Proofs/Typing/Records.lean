import Lumen.Proofs.Typing.Advance
import Lumen.Proofs.Typing.Notes
import Lumen.Proofs.Typing.Unknown

namespace Lumen.Typing

open List SymbolTable

namespace Analysis

def unknown (a : Analysis) : List Problem :=
  (a.problems.filter (·.cause.isUnknown)).reverse

-- What a step puts on record that finds no new class: types for some expressions, and, if all
-- classes are known, these problems with classes that are not.
structure Records (t : SymbolTable) (receiver? : Option String) (nodes : List Expr)
    (made : List Problem) (a b : Analysis) : Prop where
  classes : b.table.classes = a.table.classes
  unknown : a.table.classes = t.classes → b.unknown = a.unknown ++ made
  types   : ∀ id ty, b.types[id]? = some ty →
    a.types[id]? = some ty ∨ About receiver? nodes (id, ty)

namespace Records

variable {t : SymbolTable} {r r' : Option String} {ns ns' : List Expr} {ps ps' : List Problem}
  {a b c : Analysis}

theorem of_types (hc : b.table.classes = a.table.classes)
    (hu : a.table.classes = t.classes → b.unknown = a.unknown ++ ps) (ht : b.types = a.types) :
    Records t r [] ps a b :=
  ⟨hc, hu, fun _ _ h => .inl (ht ▸ h)⟩

theorem of_problems (hc : b.table.classes = a.table.classes) (hp : b.problems = a.problems)
    (ht : b.types = a.types) : Records t r [] [] a b :=
  of_types hc (fun _ => by rw [Analysis.unknown, hp, append_nil]; rfl) ht

theorem refl (a : Analysis) : Records t r [] [] a a :=
  of_problems rfl rfl rfl

theorem trans (h : Records t r ns ps a b) (h' : Records t r ns' ps' b c) :
    Records t r (ns ++ ns') (ps ++ ps') a c where
  classes := h'.classes.trans h.classes
  unknown ha := by rw [h'.unknown (h.classes.trans ha), h.unknown ha, append_assoc]
  types id ty hid := by
    rcases h'.types id ty hid with hid | habout
    · exact (h.types id ty hid).imp_right (·.mono (subset_append_left _ _))
    · exact .inr (habout.mono (subset_append_right _ _))

theorem next (h : Records t r ns ps a b) (h' : Records t r [] [] b c) : Records t r ns ps a c :=
  append_nil ns ▸ append_nil ps ▸ h.trans h'

theorem after (h : Records t r [] [] a b) (h' : Records t r ns ps b c) : Records t r ns ps a c :=
  h.trans h'

theorem widen (h : Records t r ns ps a b) (hr : r' = none → r = none) (hs : ns ⊆ ns') :
    Records t r' ns' ps a b := by
  refine { h with types := fun id ty hid => (h.types id ty hid).imp_right fun habout => ?_ }
  obtain ⟨e, he, hid, htype⟩ := habout
  exact ⟨e, hs he, hid, fun hnone => htype (hr hnone)⟩

theorem idle (a : Analysis) : Records t r ns [] a a :=
  (refl a).widen id (nil_subset _)

theorem report (a : Analysis) (cause : Cause) (loc : Location)
    (h : cause.isUnknown = false) : Records t r [] [] a (a.report cause loc) :=
  of_types rfl (fun _ => by simp [Analysis.unknown, Analysis.report, h]) rfl

theorem reportIf (a : Analysis) (wrong : Bool) (cause : Cause) (loc : Location)
    (h : cause.isUnknown = false) : Records t r [] [] a (a.reportIf wrong cause loc) := by
  cases wrong
  case false => exact refl a
  case true => exact report a cause loc h

theorem record {f : Finding} (hu : a.table.classes = t.classes → f.unknown = ps)
    (hn : ∀ n ∈ f.notes, About r ns n) : Records t r ns ps a (a.record f) where
  classes := rfl
  unknown ha := by simp [Analysis.unknown, Analysis.record, ← hu ha, Finding.unknown]
  types id ty h := by
    simp only [Analysis.record] at h
    generalize a.types = types at h ⊢
    generalize f.notes = notes at h hn
    induction notes generalizing types
    case nil => exact .inl h
    case cons n notes ih =>
      rw [forall_mem_cons] at hn
      rcases ih _ h hn.2 with h | h
      · rw [Std.TreeMap.getElem?_insert] at h
        split at h
        case isFalse => exact .inl h
        case isTrue hid =>
          cases h
          exact .inr (Std.LawfulEqCmp.eq_of_compare hid ▸ hn.1)
      · exact .inr h

theorem infer (place : Place) (a : Analysis) (e : Expr) :
    Records t place.receiver? e.nodes (e.unknown t) a (a.infer place e).2 :=
  record (fun ha => unknown_infer (isClass_congr ha) e)
    (infer_about (a.environment place) e)

theorem inferInitial (place : Place) (a : Analysis) (declared : Option TypeName) (init : Expr) :
    Records t place.receiver? init.nodes (init.initialUnknown t declared) a
      (a.inferInitial place declared init).2 := by
  refine record (fun ha => unknown_inferInitial (isClass_congr ha) declared init) ?_
  rw [inferInitial_notes]
  exact infer_about (a.environment place) init

theorem typeOf (a : Analysis) (type : TypeName) (loc : Location) :
    Records t r [] (type.unknown t loc) a (a.typeOf type loc).2 := by
  rw [Analysis.typeOf]
  cases type
  case named name =>
    have hclass (ha : a.table.classes = t.classes) : t.isClass name = a.table.isClass name :=
      congrFun (isClass_congr ha.symm) name
    cases hc : a.table.isClass name <;> simp only [writtenType, hc] <;>
      exact of_types rfl (fun ha => by
        simp [TypeName.unknown, hclass ha, hc, Analysis.unknown, Analysis.report,
          Cause.isUnknown]) rfl
  all_goals exact refl a

theorem declareIn (a : Analysis) (scope : Nat) (symbol : Symbol) :
    Records t r [] [] a (a.declareIn scope symbol) := by
  rw [Analysis.declareIn]
  split
  · exact report a _ _ rfl
  · exact of_problems rfl rfl rfl

theorem declare (place : Place) (a : Analysis) (symbol : Symbol) :
    Records t r [] [] a (a.declare place symbol) := by
  rw [Analysis.declare]
  split
  · exact declareIn a _ symbol
  · split
    · exact report a _ _ rfl
    · exact of_problems rfl rfl rfl

theorem inBlock {place : Place} (h : Records t r ns ps a.enter b) :
    Records t r ns ps a (b.leave place) := by
  refine .next ⟨h.classes, h.unknown, h.types⟩
    (of_problems ?_ (problems_leave place b) (types_leave place b))
  rw [leave]
  split <;> rfl

theorem variableType (a : Analysis) (name : String) (value : Ty) (loc : Location) :
    Records t r [] [] a (a.variableType name value loc).2 := by
  unfold Analysis.variableType
  split
  · exact report a _ loc rfl
  · exact report a _ loc rfl
  · exact refl a

-- A step for each of the given things. What one of them adds is known wherever `I` holds.
theorem foldl {α : Type} {I : Analysis → Prop} {n : α → List Expr} {f : α → List Problem}
    {step : Analysis → α → Analysis} (xs : List α) (hI : ∀ x ∈ xs, ∀ a, I a → I (step a x))
    (h : ∀ x ∈ xs, ∀ a, I a → Records t r (n x) (f x) a (step a x)) (ha : I a) :
    Records t r (xs.flatMap n) (xs.flatMap f) a (xs.foldl step a) := by
  induction xs generalizing a
  case nil => exact refl a
  case cons x xs ih =>
    rw [forall_mem_cons] at hI h
    exact (h.1 a ha).trans (ih hI.2 h.2 (hI.1 a ha))

end Records
end Analysis

variable {t : SymbolTable} (place : Place)

theorem checkVariable_records (a : Analysis) (d : Declaration) :
    a.Records t place.receiver? (nodesOfOption d.init) (d.localUnknown t)
      (checkVariable place a d.name d.type d.init d.loc).2 := by
  obtain ⟨name, loc, type, init, isConst, isParam⟩ := d
  cases type <;> cases init <;> simp only [checkVariable, Declaration.localUnknown,
    Declaration.typeUnknown, Declaration.valueUnknown, Option.toList, flatMap_nil,
    flatMap_singleton, if_true, nil_append, append_nil]
  case none.none => exact .refl a
  case none.some init =>
    exact .next (.inferInitial place a none init) (.variableType _ name _ loc)
  case some.none type => exact .next (.typeOf a type loc) (.reportIf _ _ _ loc rfl)
  case some.some type init =>
    have h := (Analysis.Records.typeOf (t := t) a type loc).trans
      (.inferInitial place _ (some type) init)
    exact .next (.next h (.reportIf _ _ _ loc rfl)) (.reportIf _ _ _ loc rfl)

theorem checkCondition_records (a : Analysis) (condition : Expr) :
    a.Records t place.receiver? condition.nodes (condition.unknown t)
      (checkCondition place a condition) :=
  .next (.infer place a condition) (.reportIf _ _ _ _ rfl)

theorem checkOptional_records (a : Analysis) (condition : Option Expr) :
    a.Records t place.receiver? (nodesOfOption condition)
      (condition.toList.flatMap (Expr.unknown t)) (checkOptional place a condition) := by
  cases condition
  case none => exact .refl a
  case some condition =>
    rw [Option.toList, flatMap_singleton]
    exact checkCondition_records place a condition

theorem checkAssign_records (a : Analysis) (target value : Expr) (op : Option BinaryOp)
    (loc : Location) :
    a.Records t place.receiver? (target.nodes ++ value.nodes) (target.unknown t ++ value.unknown t)
      (checkAssign place a target op value loc) := by
  refine .next (.trans (.infer place a target) (.infer place _ value)) ?_
  simp only [checkAssign]
  split
  · exact .report _ _ loc rfl
  · split
    · exact .refl _
    · split
      · exact .reportIf _ _ _ loc rfl
      · split
        · exact .report _ _ loc rfl
        · exact .reportIf _ _ _ loc rfl

theorem checkResult_records (a : Analysis) (value : Option Expr) (loc : Location) :
    a.Records t place.receiver? (nodesOfOption value) (value.toList.flatMap (Expr.unknown t))
      (checkResult place a value loc) := by
  cases value <;> simp only [checkResult, Option.toList, flatMap_nil, flatMap_singleton]
  case none => exact .reportIf a _ _ loc rfl
  case some value =>
    have h := Analysis.Records.infer (t := t) place a value
    split
    · exact h.next (.report _ _ loc rfl)
    · exact h.next (.reportIf _ _ _ loc rfl)

mutual

theorem checkStmt_records (inLoop : Bool) (a : Analysis) (s : Stmt) :
    a.Records t place.receiver? s.nodes (s.unknown t) (checkStmt place inLoop a s) := by
  cases s <;> simp only [checkStmt, Stmt.nodes, Stmt.unknown]
  case «variable» loc name type init =>
    exact (checkVariable_records place a ⟨name, loc, type, init, _, _⟩).next (.declare place _ _)
  case constant loc name type value =>
    exact (checkVariable_records place a ⟨name, loc, some type, some value, _, _⟩).next
      (.declare place _ _)
  case block loc body => exact .inBlock (checkBody_records inLoop a.enter body)
  case assign loc target op value => exact checkAssign_records place a target value op loc
  case result loc value => exact checkResult_records place a value loc
  case branch loc condition thenBody elseBody =>
    exact ((checkCondition_records place a condition).trans
      (.inBlock (checkBody_records inLoop _ thenBody))).trans (checkElse_records inLoop _ elseBody)
  case whileLoop loc condition body =>
    exact (checkCondition_records place a condition).trans
      (.inBlock (checkBody_records true _ body))
  case forLoop loc init condition update body =>
    exact .inBlock (.trans (.trans (.trans (checkStep_records inLoop a.enter init)
      (checkOptional_records place _ condition)) (checkStep_records inLoop _ update))
      (.inBlock (checkBody_records true _ body)))
  case breakLoop | continueLoop => exact .reportIf a _ _ _ rfl
  case evaluate loc e => exact .infer place a e
  case bare e => exact .infer place a e
  case classDef | routine =>
    exact .widen (.report a _ _ rfl) id (nil_subset _)

theorem checkBody_records (inLoop : Bool) (a : Analysis) (body : List Stmt) :
    a.Records t place.receiver? (nodesIn body) (unknownIn t body)
      (checkBody place inLoop a body) := by
  cases body
  case nil => exact .refl a
  case cons s rest => exact (checkStmt_records inLoop a s).trans (checkBody_records inLoop _ rest)

theorem checkElse_records (inLoop : Bool) (a : Analysis) (body : Option (List Stmt)) :
    a.Records t place.receiver? (nodesInElse body) (unknownInElse t body)
      (checkElse place inLoop a body) := by
  cases body
  case none => exact .refl a
  case some body => exact .inBlock (checkBody_records inLoop a.enter body)

theorem checkStep_records (inLoop : Bool) (a : Analysis) (s : Option Stmt) :
    a.Records t place.receiver? (nodesInStep s) (unknownInStep t s)
      (checkStep place inLoop a s) := by
  cases s
  case none => exact .refl a
  case some s => exact checkStmt_records inLoop a s

end

end Lumen.Typing
