import Lumen.Proofs.Nodes
import Lumen.Proofs.Typing.Inference

namespace Lumen

open List

namespace Expr

inductive Path : Expr → List Expr → Prop
  | root : Path e [e]
  | down : d ∈ e.children → Path d path → Path e (e :: path)

def isCallFree : Expr → Bool
  | .literal .. | .variable .. | .receiver _ => true
  | .binary _ _ left right => left.isCallFree && right.isCallFree
  | .unary _ _ operand => operand.isCallFree
  | .member _ object _ => object.isCallFree
  | .call .. | .invoke .. | .create .. | .stray _ => false

variable {e d : Expr}

theorem isCallFree_children (h : e.isCallFree) (hd : d ∈ e.children) : d.isCallFree := by
  cases e <;> simp_all [isCallFree, children]
  case binary => rcases hd with rfl | rfl <;> simp [h]

theorem isCallFree_nodes (h : e.isCallFree) : e.nodes = e.parts ++ [e] := by
  cases e <;> simp_all [isCallFree, parts, children]

@[elab_as_elim] theorem isCallFree_induction {motive : Expr → Prop}
    (step : ∀ e, e.isCallFree → (∀ d ∈ e.children, motive d) → motive e) (e : Expr)
    (h : e.isCallFree) : motive e := by
  refine step e h ?_
  fun_induction isCallFree e <;>
    simp only [children, forall_mem_cons, not_mem_nil, false_implies, implies_true,
      and_true]
  case case4 m op left right ihl ihr =>
    obtain ⟨hl, hr⟩ := Bool.and_eq_true_iff.mp h
    exact ⟨step left hl (ihl hl), step right hr (ihr hr)⟩
  case case5 m op operand ih => exact step operand h (ih h)
  case case6 m object name ih => exact step object h (ih h)
  all_goals cases h

theorem isCallFree_of_mem (h : e.isCallFree) : ∀ d ∈ e.nodes, d.isCallFree := by
  refine isCallFree_induction ?_ e h
  intro e h ih
  rw [isCallFree_nodes h, forall_mem_append]
  refine ⟨fun d hd => ?_, by simpa using h⟩
  obtain ⟨child, hchild, hd⟩ := mem_flatMap.mp hd
  exact ih child hchild d hd

theorem Path.subset (h : Path e path) (he : e.isCallFree) : ∀ p ∈ path, p ∈ e.nodes := by
  induction h with
  | root => simp [isCallFree_nodes he]
  | down hd _ ih =>
    rw [isCallFree_nodes he, forall_mem_cons]
    refine ⟨by simp, fun p hp => mem_append_left _ (mem_flatMap.mpr ⟨_, hd, ?_⟩)⟩
    exact ih (isCallFree_children he hd) p hp

end Expr

namespace Typing

variable {e : Expr} (env : Environment)

-- More is reported about the expression than about what it is made of.
def Environment.Reports (e : Expr) : Prop :=
  (infer env e).problems ≠ e.children.flatMap fun d => (infer env d).problems

instance : DecidablePred env.Reports := fun _ => inferInstanceAs (Decidable (_ ≠ _))

section

variable (h : e.isCallFree)

include h

-- Every rule for an expression without calls hands on the type `error`.
theorem infer_eq_ofRule :
    ∃ mark rule, infer env e = .ofRule mark (e.children.map (infer env)) rule ∧
      ((∃ d ∈ e.children, (infer env d).type = .error) → rule = .ok .error) := by
  cases e <;> simp only [Expr.isCallFree, Bool.false_eq_true] at h <;>
    refine ⟨_, _, by rw [infer]; rfl, ?_⟩ <;> rintro ⟨d, hd, herror⟩ <;>
    simp only [Expr.children, mem_cons, not_mem_nil, or_false] at hd
  case binary => rcases hd with rfl | rfl <;> simp [binaryType, herror]
  case unary => simp [unaryType, ← hd, herror]
  case member => simp [Environment.memberType, ← hd, herror]

theorem infer_cases :
    (infer env e).problems = (e.children.flatMap fun d => (infer env d).problems) ∧
        ((∃ d ∈ e.children, (infer env d).type = .error) → (infer env e).type = .error) ∨
      (infer env e).problems ≠ [] ∧ (infer env e).type = .error ∧
        ∀ d ∈ e.children, (infer env d).type ≠ .error := by
  obtain ⟨mark, rule, heq, hrule⟩ := infer_eq_ofRule env h
  cases rule with
  | ok type =>
    refine .inl ⟨?_, fun herror => ?_⟩
    · simp [heq, Finding.ofRule, Finding.node, flatMap_map]
    · simpa [heq, Finding.ofRule] using hrule herror
  | error cause =>
    refine .inr ⟨?_, ?_, fun d hd herror => by cases hrule ⟨d, hd, herror⟩⟩ <;>
      simp [heq, Finding.ofRule, Finding.node]

theorem type_eq_error :
    (infer env e).problems ≠ [] → (infer env e).type = .error := by
  refine Expr.isCallFree_induction ?_ e h
  intro e h ih hp
  obtain ⟨hsilent, herror⟩ | ⟨_, herror, _⟩ := infer_cases env h
  · rw [hsilent, ne_eq, flatMap_eq_nil_iff] at hp
    obtain ⟨d, hd, hp⟩ : ∃ d ∈ e.children, (infer env d).problems ≠ [] := by simpa using hp
    exact herror ⟨d, hd, ih d hd hp⟩
  · exact herror

theorem problems_nodes :
    (infer env e).problems = [] → ∀ d ∈ e.nodes, (infer env d).problems = [] := by
  refine Expr.isCallFree_induction ?_ e h
  intro e h ih hp
  obtain ⟨hsilent, _⟩ | ⟨hne, _⟩ := infer_cases env h
  · have hchildren := flatMap_eq_nil_iff.mp (hsilent.symm.trans hp)
    rw [Expr.isCallFree_nodes h, forall_mem_append]
    refine ⟨fun d hd => ?_, by simpa using hp⟩
    obtain ⟨child, hchild, hd⟩ := mem_flatMap.mp hd
    exact ih child hchild (hchildren child hchild) d hd
  · exact absurd hp hne

end

-- Where something is reported, nothing has been reported below.
theorem Environment.Reports.parts (hr : env.Reports e) (h : e.isCallFree) :
    (infer env e).problems ≠ [] ∧ ∀ d ∈ e.parts, (infer env d).problems = [] := by
  obtain ⟨hsilent, _⟩ | ⟨hown, _, hne⟩ := infer_cases env h
  · exact absurd hsilent hr
  · refine ⟨hown, fun d hd => ?_⟩
    obtain ⟨child, hchild, hd⟩ := mem_flatMap.mp hd
    have hfree := Expr.isCallFree_children h hchild
    refine problems_nodes env hfree ?_ d hd
    exact Decidable.not_not.mp fun hp => hne child hchild (type_eq_error env hfree hp)

theorem countP_reports (h : e.Path path) (he : e.isCallFree) :
    path.countP env.Reports ≤ 1 := by
  induction h with
  | root => exact countP_le_length
  | down hd hpath ih =>
    have hfree := Expr.isCallFree_children he hd
    rw [countP_cons]
    split
    case isTrue hr =>
      have hnone := (Environment.Reports.parts env (of_decide_eq_true hr) he).2
      refine Nat.succ_le_succ (Nat.le_of_eq (countP_eq_zero.mpr fun p hp hrp => ?_))
      have hin := hpath.subset hfree p hp
      refine (Environment.Reports.parts env (of_decide_eq_true hrp)
        (Expr.isCallFree_of_mem hfree p hin)).1 ?_
      exact hnone p (mem_flatMap.mpr ⟨_, hd, hin⟩)
    case isFalse => exact ih hfree

-- Whatever is reported about an expression makes its type `error`, what reports has nothing below
-- it that does, and so there is one report at most on each way down.
theorem infer_reports_once (h : e.isCallFree) :
    ((infer env e).problems ≠ [] → (infer env e).type = .error) ∧
    (∀ d ∈ e.nodes, env.Reports d → ∀ part ∈ d.parts, (infer env part).problems = []) ∧
    ∀ path, e.Path path → path.countP env.Reports ≤ 1 :=
  ⟨type_eq_error env h,
    fun d hd hr => (Environment.Reports.parts env hr (Expr.isCallFree_of_mem h d hd)).2,
    fun _ hpath => countP_reports env hpath h⟩

-- The name that is not declared is reported, and nothing on the way up to the product.
theorem infer_reports_once_undeclared :
    let env := Analysis.empty.environment ⟨"f", .void, none, []⟩
    let mark : Mark := ⟨0, .first⟩
    let lost := Expr.variable mark "lost"
    let negated := Expr.unary mark .neg (.member mark lost "x")
    let e := Expr.binary mark .mul negated (.literal mark (.int 1))
    e.isCallFree ∧ (infer env e).problems = [⟨.undefinedSymbol "lost", .first⟩] ∧
      (infer env e).type = .error ∧ env.Reports lost ∧
      [e, negated, .member mark lost "x", lost].countP env.Reports = 1 := by
  intro env mark lost negated e
  have hfree : e.isCallFree := rfl
  have hproblems : (infer env e).problems = [⟨.undefinedSymbol "lost", .first⟩] := rfl
  have hlost : env.Reports lost := cons_ne_nil _ _
  obtain ⟨herror, -, hpaths⟩ := infer_reports_once env hfree
  refine ⟨hfree, hproblems, herror (hproblems ▸ cons_ne_nil _ _), hlost, ?_⟩
  refine Nat.le_antisymm (hpaths _ (.down (.head _) (.down (.head _) (.down (.head _) .root)))) ?_
  exact countP_pos_iff.mpr ⟨lost, by simp, decide_eq_true hlost⟩

end Typing
end Lumen
