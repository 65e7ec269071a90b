import Lumen.Proofs.Code.Layout
import Lumen.Proofs.Execution.Machine

namespace Lumen

namespace Code

-- Every number from `next` on, as many as there are, is the label of one place.
def Numbered (code : List Instruction) (next count : Nat) : Prop :=
  ∀ n, (labelsOf code).count n = if next ≤ n ∧ n < next + count then 1 else 0

theorem Numbered.of_labelsOf (h : labelsOf code = []) (next : Nat) : Numbered code next 0 := by
  intro n
  rw [h, List.count_nil, if_neg (by omega)]

theorem Numbered.of_straight (h : Straight code) (next : Nat) : Numbered code next 0 :=
  .of_labelsOf (labelsOf_straight h) next

theorem Numbered.append (ha : Numbered a next i) (hb : Numbered b (next + i) j) :
    Numbered (a ++ b) next (i + j) := by
  intro n
  rw [labelsOf_append, List.count_append, ha, hb]
  split_ifs <;> omega

theorem Numbered.nodup (h : Numbered code next count) : (labelsOf code).Nodup := by
  refine List.nodup_iff_count_le_one.mpr fun n => ?_
  rw [h]
  split <;> omega

section Places

variable (label : Nat) (loc : Location) (rest : List Instruction)

@[simp] theorem labelsOf_place : labelsOf (.place label loc :: rest) = label :: labelsOf rest :=
  rfl

@[simp] theorem labelsOf_jump : labelsOf (.jump .jump label loc :: rest) = labelsOf rest :=
  rfl

@[simp] theorem labelsOf_jumpIfFalse :
    labelsOf (.jump .jumpIfFalse label loc :: rest) = labelsOf rest :=
  rfl

@[simp] theorem labelsOf_nil : labelsOf [] = [] :=
  rfl

end Places

namespace Site

variable (site : Site) (l : Layout)

@[simp] theorem labelsOf_value (slots : Slots) (e : Expr) :
    labelsOf (site.value slots e) = [] :=
  labelsOf_straight (site.value_straight slots e)

@[simp] theorem labelsOf_header (slots : Slots) (stop : Nat) (loc : Location)
    (condition : Option Expr) : labelsOf (site.header slots stop loc condition) = [] := by
  cases condition <;> simp [header]

theorem labelsOf_result (slots : Slots) (value : Option Expr) (loc : Location) :
    labelsOf (site.result slots value loc) = [] := by
  cases value
  case none => rfl
  case some value =>
    rw [result, labelsOf_append, labelsOf_value]
    rfl

theorem labelsOf_initialAt (names : Names) (name : String) (type : Ty) (loc : Location)
    (init : Option Expr) : labelsOf (site.initialAt l names name type loc init) = [] := by
  cases init
  case none => rfl
  case some init =>
    rw [initialAt, labelsOf_append, labelsOf_value]
    rfl

mutual

theorem stmtAt_numbered (names : Names) (loop : Option Loop) (next : Nat) (s : Stmt) :
    Numbered (site.stmtAt l names loop next s) next s.labels := by
  cases s <;> simp only [stmtAt, Stmt.labels]
  case «variable» => exact .of_labelsOf (site.labelsOf_initialAt ..) next
  case constant => exact .of_labelsOf (site.labelsOf_initialAt ..) next
  case block loc body => exact bodyAt_numbered names.enter loop next body
  case assign loc target op value =>
    exact .of_straight (site.assign_straight _ target op value loc) next
  case evaluate loc e => exact .of_straight (site.evaluate_straight _ e loc) next
  case result loc value => exact .of_labelsOf (site.labelsOf_result ..) next
  case branch loc condition thenBody elseBody =>
    have hthen := bodyAt_numbered names.enter loop (next + 1) thenBody
    have helse := elseAt_numbered (names.skip (declarationsIn thenBody).length) loop next
      (next + 1 + labelsIn thenBody) loc elseBody
    intro n
    simp only [labelsOf_append, labelsOf_value, labelsOf_jumpIfFalse, List.count_append, hthen n,
      helse n, List.count_nil]
    split_ifs <;> omega
  case whileLoop loc condition body =>
    have hbody := bodyAt_numbered names.enter (some ⟨next, next + 1⟩) (next + 2) body
    intro n
    simp only [List.cons_append, labelsOf_place, labelsOf_append, labelsOf_value,
      labelsOf_jumpIfFalse, labelsOf_jump, labelsOf_nil, List.count_append, List.count_cons,
      hbody n,
      List.count_nil, beq_iff_eq]
    split_ifs <;> omega
  case forLoop loc init condition update body =>
    have hinit := stepAt_numbered names.enter loop next init
    have hbody := bodyAt_numbered (names.enter.afterStep init).enter
      (some ⟨next + labelsInStep init + 1, next + labelsInStep init + 2⟩)
      (next + labelsInStep init + 3) body
    have hupdate := stepAt_numbered (names.enter.afterStep init) loop
      (next + labelsInStep init + 3 + labelsIn body) update
    intro n
    simp only [labelsOf_place, labelsOf_append, labelsOf_header, labelsOf_jump, labelsOf_nil,
      List.count_append, List.count_cons, hinit n, hbody n, hupdate n, List.count_nil,
      beq_iff_eq]
    split_ifs <;> omega
  case breakLoop loc => cases loop <;> exact .of_labelsOf rfl next
  case continueLoop loc => cases loop <;> exact .of_labelsOf rfl next
  all_goals exact .of_labelsOf rfl next

theorem bodyAt_numbered (names : Names) (loop : Option Loop) (next : Nat) (body : List Stmt) :
    Numbered (site.bodyAt l names loop next body) next (labelsIn body) := by
  cases body
  case nil => exact .of_labelsOf rfl next
  case cons s rest =>
    rw [bodyAt, labelsIn]
    exact (stmtAt_numbered names loop next s).append (bodyAt_numbered _ loop _ rest)

theorem elseAt_numbered (names : Names) (loop : Option Loop) (orElse next : Nat) (loc : Location)
    (body : Option (List Stmt)) (n : Nat) :
    (labelsOf (site.elseAt l names loop orElse next loc body)).count n =
      (if next ≤ n ∧ n < next + labelsInElse body then 1 else 0) +
        if orElse = n then 1 else 0 := by
  cases body
  case none =>
    have hnone : ¬(next ≤ n ∧ n < next + 0) := by omega
    rw [elseAt, labelsInElse, if_neg hnone]
    simp only [labelsOf_place, labelsOf_nil, List.count_cons, List.count_nil, beq_iff_eq]
  case some body =>
    have hbody := bodyAt_numbered names.enter loop (next + 1) body
    rw [elseAt, labelsInElse]
    simp only [List.cons_append, labelsOf_place, labelsOf_jump, labelsOf_append, labelsOf_nil,
      List.count_append, List.count_cons, hbody n, List.count_nil, beq_iff_eq]
    split_ifs <;> omega

theorem stepAt_numbered (names : Names) (loop : Option Loop) (next : Nat) (step : Option Stmt) :
    Numbered (site.stepAt l names loop next step) next (labelsInStep step) := by
  cases step
  case none => exact .of_labelsOf rfl next
  case some s => exact stmtAt_numbered names loop next s

end

end Site
end Code
end Lumen
