import Lumen.Proofs.Symbol.Table
import Lumen.Proofs.Typing.Exits
import Lumen.Proofs.Typing.Notes

namespace Lumen

open List

def Scope.outline (s : Scope) : Kind × String × Option Nat :=
  (s.kind, s.name, s.parent)

@[simp] theorem Scope.outline_insert (s : Scope) (symbol : Symbol) :
    (s.insert symbol).outline = s.outline :=
  rfl

@[simp] theorem Scope.outline_retire (s : Scope) (symbols : List Symbol) :
    (s.retire symbols).outline = s.outline :=
  rfl

@[simp] theorem Scope.outline_retype (s : Scope) (name : String) (type : Ty) :
    (s.retype name type).outline = s.outline := by
  rw [Scope.retype]
  split <;> rfl

namespace Typing

theorem Analysis.problems_leave (place : Place) (a : Analysis) :
    (a.leave place).problems = a.problems := by
  rw [leave]
  split <;> rfl

theorem Analysis.types_leave (place : Place) (a : Analysis) :
    (a.leave place).types = a.types := by
  rw [leave]
  split <;> rfl

-- What happens to an analysis while the expressions with some numbers and some exits are looked at,
-- and nothing is declared but in the lasting scopes `H`.
structure Analysis.Advances (H : Nat → Prop) (ids : List Nat) (exits : List Exit)
    (a a' : Analysis) : Prop where
  problems : a.problems ⊆ a'.problems
  types    : ∀ id, id ∉ ids → a'.types[id]? = a.types[id]?
  classes  : a'.table.classes = a.table.classes
  routines : a'.table.routines = a.table.routines
  size     : a'.table.scopes.size = a.table.scopes.size
  scopes   : ∀ i, ¬H i → a'.table.scopes[i]? = a.table.scopes[i]?
  outline  : ∀ i : Nat,
    a'.table.scopes[i]?.map Scope.outline = a.table.scopes[i]?.map Scope.outline
  -- Each block that is entered is left again.
  tail     : a'.blocks.tail = a.blocks.tail
  none     : a.blocks = [] → a'.blocks = []
  outside  : a'.outside = a.outside ++ misplaced exits

namespace Analysis.Advances

variable {H : Nat → Prop} {ids ids' : List Nat} {es es' : List Exit} {a b c : Analysis}

theorem refl (a : Analysis) : Advances H [] [] a a where
  problems := List.Subset.refl _
  types := fun _ _ => rfl
  classes := rfl
  routines := rfl
  size := rfl
  scopes := fun _ _ => rfl
  outline := fun _ => rfl
  tail := rfl
  none := id
  outside := (append_nil _).symm

theorem trans (h : Advances H ids es a b) (h' : Advances H ids' es' b c) :
    Advances H (ids ++ ids') (es ++ es') a c where
  problems := List.Subset.trans h.problems h'.problems
  types := fun id hid => by
    rw [mem_append, not_or] at hid
    rw [h'.types id hid.2, h.types id hid.1]
  classes := h'.classes.trans h.classes
  routines := h'.routines.trans h.routines
  size := h'.size.trans h.size
  scopes := fun i hi => (h'.scopes i hi).trans (h.scopes i hi)
  outline := fun i => (h'.outline i).trans (h.outline i)
  tail := h'.tail.trans h.tail
  none := fun hb => h'.none (h.none hb)
  outside := by rw [h'.outside, h.outside, misplaced_append, append_assoc]

theorem next (h : Advances H ids es a b) (h' : Advances H [] [] b c) : Advances H ids es a c :=
  append_nil ids ▸ append_nil es ▸ h.trans h'

theorem after (h : Advances H [] [] a b) (h' : Advances H ids es b c) : Advances H ids es a c :=
  h.trans h'

theorem widen {H' : Nat → Prop} (h : Advances H ids es a b) (hH : ∀ i, H i → H' i) :
    Advances H' ids es a b :=
  { h with scopes := fun i hi => h.scopes i fun hi' => hi (hH i hi') }

theorem more (h : Advances H ids es a b) (hi : ids ⊆ ids') : Advances H ids' es a b :=
  { h with types := fun id hid => h.types id fun hid' => hid (hi hid') }

theorem report (a : Analysis) (cause : Cause) (loc : Location)
    (h : cause.isOutside = false := by rfl) : Advances H [] [] a (a.report cause loc) :=
  { refl a with
    problems := subset_cons_self _ _
    outside := (a.outside_report h loc).trans (append_nil _).symm }

theorem reportIf (a : Analysis) (wrong : Bool) (cause : Cause) (loc : Location)
    (h : cause.isOutside = false := by rfl) : Advances H [] [] a (a.reportIf wrong cause loc) := by
  unfold Analysis.reportIf
  split
  · exact report a cause loc h
  · exact refl a

theorem exit (a : Analysis) (inLoop : Bool) (word : String) (loc : Location) :
    Advances H [] [⟨word, loc, inLoop⟩] a (a.reportIf (!inLoop) (.outsideLoop word) loc) := by
  cases inLoop
  case true => exact { refl a with outside := by simp [Analysis.reportIf, misplaced] }
  case false =>
    exact { refl a with
      problems := subset_cons_self _ _
      outside := by simp [Analysis.reportIf, Analysis.report, Analysis.outside, misplaced,
        Problem.ofExit, Cause.isOutside] }

end Analysis.Advances

-- Of the notes for one number the last one counts.
theorem getElem?_foldl_insert (notes : List (Nat × Ty)) (types : Std.TreeMap Nat Ty) (id : Nat)
    (h : id ∉ notes.map Prod.fst) :
    (notes.foldl (fun types (id, type) => types.insert id type) types)[id]? = types[id]? := by
  induction notes generalizing types
  case nil => rfl
  case cons n notes ih =>
    simp only [map_cons, mem_cons, not_or] at h
    rw [foldl_cons, ih _ h.2, Std.TreeMap.getElem?_insert]
    simp [Ne.symm h.1]

namespace Analysis.Advances

variable {H : Nat → Prop}

theorem record (a : Analysis) {f : Finding} (h : f.Severe) : Advances H f.ids [] a (a.record f) :=
  { refl a with
    problems := subset_append_right _ _
    types := fun id hid => getElem?_foldl_insert f.notes a.types id hid
    outside := (a.outside_record h).trans (append_nil _).symm }

theorem infer (place : Place) (a : Analysis) (e : Expr) :
    Advances H e.ids [] a (a.infer place e).2 :=
  (record a (infer_severe _ e)).more (infer_ids_subset (a.environment place) e)

theorem inferInitial (place : Place) (a : Analysis) (declared : Option TypeName) (init : Expr) :
    Advances H init.ids [] a (a.inferInitial place declared init).2 := by
  refine (record a (inferInitial_severe _ declared init)).more ?_
  rw [Finding.ids, inferInitial_notes]
  exact infer_ids_subset (a.environment place) init

theorem typeOf (a : Analysis) (type : TypeName) (loc : Location) :
    Advances H [] [] a (a.typeOf type loc).2 := by
  unfold Analysis.typeOf
  split
  case h_1 => exact refl a
  case h_2 cause h =>
    exact report a cause loc (Cause.isOutside_eq_false (writtenType_strict _ type cause h))

theorem insert (a : Analysis) (hs : H scope) (symbol : Symbol) :
    Advances H [] [] a { a with table := a.table.insert scope symbol } :=
  { refl (H := H) a with
    size := by simp
    scopes := fun i hi => by
      have hne : scope ≠ i := fun e => hi (e ▸ hs)
      simp [hne]
    outline := fun i => by
      by_cases e : scope = i <;> simp [e, Function.comp_def] }

theorem declare (place : Place) (a : Analysis) (symbol : Symbol) :
    Advances (· = place.home) [] [] a (a.declare place symbol) := by
  unfold Analysis.declare
  split
  · unfold declareIn
    split
    · exact report a _ _
    · exact insert (H := (· = place.home)) a rfl symbol
  case h_2 block outer hb =>
    split
    · exact report a _ _
    · exact { refl a with tail := by rw [hb]; rfl, none := by simp [hb] }

theorem inBlock {place : Place} {a : Analysis} (h : Advances (· = place.home) ids es a.enter b) :
    Advances (· = place.home) ids es a (b.leave place) := by
  have htail : b.blocks.tail = a.blocks := h.tail
  unfold Analysis.leave
  split
  case h_1 hb =>
    rw [hb] at htail
    exact { h with tail := by rw [hb, ← htail]; rfl, none := fun _ => hb }
  case h_2 block outer hb =>
    rw [hb] at htail
    exact { h with
      size := Eq.trans (by simp) h.size
      scopes := fun i hi => Eq.trans (by simp [Ne.symm hi]) (h.scopes i hi)
      outline := fun i => by
        refine Eq.trans ?_ (h.outline i)
        by_cases e : place.home = i <;> simp [e, Function.comp_def]
      tail := congrArg List.tail htail
      none := htail.trans }

theorem variableType (a : Analysis) (name : String) (value : Ty) (loc : Location) :
    Advances H [] [] a (a.variableType name value loc).2 := by
  unfold Analysis.variableType
  split
  · exact report a _ loc
  · exact report a _ loc
  · exact refl a

end Analysis.Advances

section Advances

variable (place : Place)

theorem checkVariable_advances {H : Nat → Prop} (a : Analysis) (name : String)
    (type : Option TypeName) (init : Option Expr) (loc : Location) :
    a.Advances H (idsOfOption init) [] (checkVariable place a name type init loc).2 := by
  cases type <;> cases init <;> simp only [checkVariable, idsOfOption]
  case none.none => exact .refl a
  case none.some init =>
    exact .next (.inferInitial place a none init) (.variableType _ name _ loc)
  case some.none type => exact .next (.typeOf a type loc) (.reportIf _ _ _ loc)
  case some.some type init =>
    have h := Analysis.Advances.inferInitial (H := H) place (a.typeOf type loc).2 type init
    exact .after (.typeOf a type loc) (.next (.next h (.reportIf _ _ _ loc)) (.reportIf _ _ _ loc))

theorem checkCondition_advances {H : Nat → Prop} (a : Analysis) (condition : Expr) :
    a.Advances H condition.ids [] (checkCondition place a condition) :=
  .next (.infer place a condition) (.reportIf _ _ _ _)

def checkOptional (a : Analysis) : Option Expr → Analysis
  | some condition => checkCondition place a condition
  | none => a

theorem checkOptional_advances {H : Nat → Prop} (a : Analysis) (condition : Option Expr) :
    a.Advances H (idsOfOption condition) [] (checkOptional place a condition) := by
  cases condition
  case none => exact .refl a
  case some condition => exact checkCondition_advances place a condition

-- Once both sides of an assignment are looked at, there are only problems to report.
theorem checkAssign_reports {H : Nat → Prop} (a : Analysis) (target value : Expr)
    (op : Option BinaryOp) (loc : Location) :
    ((a.infer place target).2.infer place value).2.Advances H [] []
      (checkAssign place a target op value loc) := by
  simp only [checkAssign]
  split
  · exact .report _ _ loc
  · split
    · exact .refl _
    · split
      · exact .reportIf _ _ _ loc
      · split
        · exact .report _ _ loc
        · exact .reportIf _ _ _ loc

theorem checkAssign_advances {H : Nat → Prop} (a : Analysis) (target value : Expr)
    (op : Option BinaryOp) (loc : Location) :
    a.Advances H (target.ids ++ value.ids) [] (checkAssign place a target op value loc) :=
  .next (.trans (.infer place a target) (.infer place _ value)) (checkAssign_reports place a ..)

theorem checkResult_advances {H : Nat → Prop} (a : Analysis) (value : Option Expr)
    (loc : Location) : a.Advances H (idsOfOption value) [] (checkResult place a value loc) := by
  cases value <;> simp only [checkResult, idsOfOption]
  case none => exact .reportIf a _ _ loc
  case some value =>
    have h := Analysis.Advances.infer (H := H) place a value
    split
    · exact h.next (.report _ _ loc)
    · exact h.next (.reportIf _ _ _ loc)

mutual

theorem checkStmt_advances (inLoop : Bool) (a : Analysis) (s : Stmt) :
    a.Advances (· = place.home) s.ids (s.exits inLoop) (checkStmt place inLoop a s) := by
  cases s <;> simp only [checkStmt, Stmt.ids, Stmt.exits]
  case «variable» loc name type init =>
    exact (checkVariable_advances place a name type init loc).next (.declare place _ _)
  case constant loc name type value =>
    exact (checkVariable_advances place a name (some type) (some value) loc).next
      (.declare place _ _)
  case block loc body => exact .inBlock (checkBody_advances inLoop a.enter body)
  case assign loc target op value => exact checkAssign_advances place a target value op loc
  case result loc value => exact checkResult_advances place a value loc
  case branch loc condition thenBody elseBody =>
    exact ((checkCondition_advances place a condition).trans
      (.inBlock (checkBody_advances inLoop _ thenBody))).trans
      (checkElse_advances inLoop _ elseBody)
  case whileLoop loc condition body =>
    exact (checkCondition_advances place a condition).trans
      (.inBlock (checkBody_advances true _ body))
  case forLoop loc init condition update body =>
    rw [← append_nil (exitsInStep inLoop init)]
    exact .inBlock (.trans (.trans (.trans (checkStep_advances inLoop a.enter init)
      (checkOptional_advances place _ condition)) (checkStep_advances inLoop _ update))
      (.inBlock (checkBody_advances true _ body)))
  case breakLoop | continueLoop => exact .exit a inLoop _ _
  case evaluate loc e => exact .infer place a e
  case bare e => exact .infer place a e
  case classDef | routine => exact (Analysis.Advances.report a _ _).more (nil_subset _)

theorem checkBody_advances (inLoop : Bool) (a : Analysis) (body : List Stmt) :
    a.Advances (· = place.home) (idsIn body) (exitsIn inLoop body)
      (checkBody place inLoop a body) := by
  cases body
  case nil => exact .refl a
  case cons s rest =>
    exact (checkStmt_advances inLoop a s).trans (checkBody_advances inLoop _ rest)

theorem checkElse_advances (inLoop : Bool) (a : Analysis) (body : Option (List Stmt)) :
    a.Advances (· = place.home) (idsInElse body) (exitsInElse inLoop body)
      (checkElse place inLoop a body) := by
  cases body
  case none => exact .refl a
  case some body => exact .inBlock (checkBody_advances inLoop a.enter body)

theorem checkStep_advances (inLoop : Bool) (a : Analysis) (s : Option Stmt) :
    a.Advances (· = place.home) (idsInStep s) (exitsInStep inLoop s)
      (checkStep place inLoop a s) := by
  cases s
  case none => exact .refl a
  case some s => exact checkStmt_advances inLoop a s

end

end Advances

end Typing
end Lumen
