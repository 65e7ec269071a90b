import Lumen.Proofs.Nodes
import Lumen.Proofs.Typing.Inference

namespace Lumen.Typing

open List

theorem inferInitial_notes (env : Environment) (declared : Option TypeName) (init : Expr) :
    (inferInitial env declared init).notes = (infer env init).notes := by
  rw [inferInitial.eq_def]
  split
  case h_2 => rfl
  case h_1 className mark created args =>
    split
    case isFalse => rfl
    case isTrue h => simp [Environment.createdType, writtenType, h.2, Finding.ofRule, Finding.node]

-- A note is about an expression that has its number. Where there is no object, `this` has no type.
def About (receiver? : Option String) (nodes : List Expr) (n : Nat × Ty) : Prop :=
  ∃ e ∈ nodes, e.id? = some n.1 ∧ (receiver? = none → ∀ m, e = .receiver m → n.2 = .error)

theorem About.mono {receiver? : Option String} {nodes nodes' : List Expr} {n : Nat × Ty}
    (h : About receiver? nodes n) (hsub : nodes ⊆ nodes') : About receiver? nodes' n := by
  obtain ⟨e, he, hid, htype⟩ := h
  exact ⟨e, hsub he, hid, htype⟩

section Notes

variable {env : Environment}

theorem about_node {e : Expr} {mark : Mark} {parts : List Finding} {own : List Problem} {type : Ty}
    (hid : e.id? = some mark.id) (ht : env.receiver? = none → ∀ m, e = .receiver m → type = .error)
    (hparts : ∀ f ∈ parts, ∀ n ∈ f.notes, About env.receiver? e.nodes n) :
    ∀ n ∈ (Finding.node mark parts own type).notes, About env.receiver? e.nodes n := by
  have hself : e ∈ e.nodes := by
    rw [Expr.nodes_eq_parts hid]
    exact mem_append_right _ (mem_singleton.mpr rfl)
  refine forall_mem_append.mpr ⟨fun n hn => ?_, forall_mem_singleton.mpr ⟨e, hself, hid, ht⟩⟩
  obtain ⟨f, hf, hn⟩ := mem_flatMap.mp hn
  exact hparts f hf n hn

theorem about_ofRule {e : Expr} {mark : Mark} {parts : List Finding} {rule : Except Cause Ty}
    (hid : e.id? = some mark.id) (ht : ∀ m, e ≠ .receiver m)
    (hparts : ∀ f ∈ parts, ∀ n ∈ f.notes, About env.receiver? e.nodes n) :
    ∀ n ∈ (Finding.ofRule mark parts rule).notes, About env.receiver? e.nodes n := by
  cases rule <;> exact about_node hid (fun _ m hm => absurd hm (ht m)) hparts

theorem about_ofCall {e : Expr} {mark : Mark} {parts : List Finding} {routine : String}
    {args : List (Ty × Location)} {rule : Except Cause Signature}
    (hid : e.id? = some mark.id) (ht : ∀ m, e ≠ .receiver m)
    (hparts : ∀ f ∈ parts, ∀ n ∈ f.notes, About env.receiver? e.nodes n) :
    ∀ n ∈ (Finding.ofCall mark parts routine args rule).notes, About env.receiver? e.nodes n := by
  cases rule <;> exact about_node hid (fun _ m hm => absurd hm (ht m)) hparts

variable (env)

mutual

theorem infer_about (e : Expr) : ∀ n ∈ (infer env e).notes, About env.receiver? e.nodes n := by
  cases e
  case literal mark value => exact about_ofRule rfl (by simp) (by simp)
  case «variable» mark name => exact about_ofRule rfl (by simp) (by simp)
  case receiver mark =>
    rw [infer, Environment.receiverType]
    cases env.receiver?
    case none => exact forall_mem_singleton.mpr ⟨_, mem_cons_self, rfl, fun _ _ _ => rfl⟩
    case some => exact forall_mem_singleton.mpr ⟨_, mem_cons_self, rfl, nofun⟩
  case binary mark op left right =>
    refine about_ofRule rfl (by simp) (forall_mem_cons.mpr ⟨fun n hn => ?_,
      forall_mem_singleton.mpr fun n hn => ?_⟩)
    · exact (infer_about left n hn).mono (by simp)
    · exact (infer_about right n hn).mono (by simp)
  case unary mark op operand =>
    refine about_ofRule rfl (by simp) (forall_mem_singleton.mpr fun n hn => ?_)
    exact (infer_about operand n hn).mono (by simp)
  case member mark object name =>
    refine about_ofRule rfl (by simp) (forall_mem_singleton.mpr fun n hn => ?_)
    exact (infer_about object n hn).mono (by simp)
  case create mark type args =>
    exact about_ofRule rfl (by simp) fun f hf n hn =>
      (inferAll_about args f hf n hn).mono (by simp)
  case call mark name args =>
    exact about_ofCall rfl (by simp) fun f hf n hn =>
      (inferAll_about args f hf n hn).mono (by simp)
  case invoke mark object name args =>
    have hargs (f : Finding) (hf : f ∈ inferAll env args) (n : Nat × Ty) (hn : n ∈ f.notes) :
        About env.receiver? (Expr.invoke mark object name args).nodes n :=
      (inferAll_about args f hf n hn).mono (by simp)
    have hobject (n : Nat × Ty) (hn : n ∈ (infer env object).notes) :
        About env.receiver? (Expr.invoke mark object name args).nodes n :=
      (infer_about object n hn).mono (by simp)
    rw [infer]
    split
    case h_1 objectMark className hc =>
      obtain ⟨rfl, -⟩ := Environment.namedClass?_some hc
      refine about_ofCall rfl (by simp) (forall_mem_cons.mpr ⟨fun n hn => ?_, hargs⟩)
      cases mem_singleton.mp hn
      exact ⟨.variable objectMark className, by simp, rfl, by simp⟩
    case h_2 =>
      have hall := forall_mem_cons.mpr ⟨hobject, hargs⟩
      dsimp only
      split
      · exact about_node rfl (by simp) hall
      · exact about_ofCall rfl (by simp) hall
      · exact about_ofRule rfl (by simp) hall
  case stray s => simp [infer]

theorem inferAll_about (es : List Expr) :
    ∀ f ∈ inferAll env es, ∀ n ∈ f.notes, About env.receiver? (nodesOf es) n := by
  cases es
  case nil => simp [inferAll]
  case cons e es =>
    rw [inferAll, nodesOf]
    refine forall_mem_cons.mpr ⟨fun n hn => ?_, fun f hf n hn => ?_⟩
    · exact (infer_about e n hn).mono (subset_append_left _ _)
    · exact (inferAll_about es f hf n hn).mono (subset_append_right _ _)

end

-- Whatever form an expression has, types are noted for no numbers but its own.
theorem infer_ids_subset (e : Expr) : (infer env e).ids ⊆ e.ids := by
  intro id hid
  obtain ⟨n, hn, rfl⟩ := mem_map.mp hid
  obtain ⟨part, hpart, hid, -⟩ := infer_about env e n hn
  exact e.listed.mem hpart hid

end Notes

end Lumen.Typing
