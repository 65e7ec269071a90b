import Lumen.Proofs.Checked.Records
import Lumen.Proofs.Code.Integrity
import Lumen.Proofs.Code.Occurrences

namespace Lumen

open List

theorem Ty.isError_eq_false {t : Ty} : t.isError = false ↔ t ≠ .error := by
  cases t <;> simp [isError]

namespace Code

attribute [local simp] Instruction.plain Instruction.withOperand Instruction.access
  Instruction.jump Instruction.place

namespace Site

-- An instruction without a type returns a value of an unknown class, or gives a field of an unknown
-- class its initial value.
def Marked (site : Site) (i : Instruction) : Prop :=
  i.type = .error →
    match i.opcode with
    | .ret => site.returns = .error
    | .putField => site.kind = .constructor
    | _ => False

def Marks (site : Site) (code : List Instruction) : Prop :=
  ∀ i ∈ code, site.Marked i

variable {site : Site} {slots : Slots} {code rest : List Instruction}

@[simp] theorem marks_nil : site.Marks [] := by
  simp [Marks]

@[simp] theorem marks_cons {i : Instruction} :
    site.Marks (i :: code) ↔ site.Marked i ∧ site.Marks code :=
  forall_mem_cons

@[simp] theorem marks_append : site.Marks (code ++ rest) ↔ site.Marks code ∧ site.Marks rest :=
  forall_mem_append

@[simp] theorem marked_of_ne {i : Instruction} (h : i.type ≠ .error) : site.Marked i :=
  fun ht => absurd ht h

@[simp] theorem marked_receiver (h : site.className ≠ none) (loc : Location) :
    site.Marked (site.receiver slots loc) := by
  obtain ⟨className, hc⟩ := Option.ne_none_iff_exists'.mp h
  simp [receiver, hc]

theorem className_of_target (h : (site.target name).2) : site.className ≠ none := by
  intro hc
  simp [target, hc] at h

variable (site) in
-- Outside of classes, no `this` has a type.
def Lacks (nodes : List Expr) : Prop :=
  site.className = none → ∀ m, .receiver m ∈ nodes → site.program.typeAt m.id = .error

theorem Lacks.mono (h : site.Lacks nodes') (hsub : nodes ⊆ nodes') : site.Lacks nodes :=
  fun hc m hm => h hc m (hsub hm)

mutual

theorem value_marks (e : Expr) (hl : site.Lacks e.nodes) (h : site.program.isFaulty e = false) :
    site.Marks (site.value slots e) := by
  cases e <;> simp only [Checked.isFaulty, Bool.or_eq_false_iff, Ty.isError_eq_false] at h <;>
    simp only [value]
  case literal m v => simp [h]
  case «variable» m name =>
    cases hs : site.storage slots name
    case field className => simp [h, className_of_field hs]
    all_goals simp [h]
  case receiver m =>
    have hc : site.className ≠ none := fun hc => h (hl hc m (mem_singleton.mpr rfl))
    simp [hc]
  case binary m op left right =>
    have hleft : site.Marks (site.value slots left) := value_marks left (hl.mono (by simp)) h.1.2
    have hright : site.Marks (site.value slots right) := value_marks right (hl.mono (by simp)) h.2
    simp [h, hleft, hright]
  case unary m op operand => simp [h, value_marks operand (hl.mono (by simp)) h.2]
  case call m name args =>
    have hargs : site.Marks (site.values slots args) := values_marks args (hl.mono (by simp)) h.2
    split
    case isTrue ht => simp [h, hargs, className_of_target ht]
    case isFalse => simp [h, hargs]
  case invoke m object name args =>
    have htype := Checked.typeOf_ne_error h.1.2
    have hobject : site.Marks (site.value slots object) :=
      value_marks object (hl.mono (by simp)) h.1.2
    have hargs : site.Marks (site.values slots args) := values_marks args (hl.mono (by simp)) h.2
    repeat' split
    all_goals simp [h, htype, hobject, hargs]
  case member m object name =>
    split <;> simp [h, value_marks object (hl.mono (by simp)) h.2]
  case create m type args => split <;> simp [h, values_marks args (hl.mono (by simp)) h.2]
  case stray => cases h

theorem values_marks (es : List Expr) (hl : site.Lacks (nodesOf es))
    (h : site.program.anyFaulty es = false) : site.Marks (site.values slots es) := by
  cases es <;> simp only [Checked.anyFaulty, Bool.or_eq_false_iff] at h
  case nil => simp [values]
  case cons e es =>
    have he : site.Marks (site.value slots e) :=
      value_marks e (hl.mono (subset_append_left _ _)) h.1
    have hes : site.Marks (site.values slots es) :=
      values_marks es (hl.mono (subset_append_right _ _)) h.2
    simp [values, he, hes]

end

theorem stmt_marks {s : Stmt} (hl : site.Lacks s.nodes)
    (h : site.program.isFaultyStmt s = false) (hb : s.hasBody = false) (loop : Option Loop)
    (f : Frame) : site.Marks ((site.stmt loop f s).1) := by
  cases s <;> try cases hb
  all_goals simp only [Checked.isFaultyStmt, Bool.or_eq_false_iff] at h
  case assign loc target op value =>
    have htype := Checked.typeOf_ne_error h.1
    have hvalue : site.Marks (site.value f.slots value) :=
      value_marks value (hl.mono (subset_append_right _ _)) h.2
    cases target <;> simp only [stmt, assign, storeField, marks_nil]
    case «variable» m name =>
      cases hs : site.storage f.slots name
      case field className => cases op <;> simp [htype, hvalue, className_of_field hs]
      all_goals cases op <;> simp [htype, hvalue]
    case member m object name =>
      simp only [Checked.isFaulty, Bool.or_eq_false_iff] at h
      have hobject : site.Marks (site.value f.slots object) :=
        value_marks object (hl.mono (by simp)) h.1.2
      cases op <;> split <;> simp [htype, hvalue, hobject]
  case «variable» loc name type init =>
    cases init <;> simp only [stmt, declaration, marks_nil]
    case some init =>
      have htype : site.variableType type (some init) ≠ .error := by
        cases type
        case none => exact Checked.typeOf_ne_error h.2
        case some type => cases type <;> simp [variableType, Ty.ofName]
      simp [htype, value_marks init hl h.2]
  case constant loc name type value =>
    have htype : Ty.ofName type ≠ .error := by cases type <;> simp [Ty.ofName]
    simp [stmt, declaration, htype, value_marks value hl h.2]
  case result loc value =>
    cases value <;> simp only [stmt, result]
    case none => simp
    case some value =>
      have hvalue : site.Marks (site.value f.slots value) := value_marks value hl h
      split
      · simp [hvalue, Checked.typeOf_ne_error h]
      · simp [hvalue, Marked]
  case evaluate loc e =>
    simp only [stmt, evaluate]
    split <;> simp [value_marks e hl h, Checked.typeOf_ne_error h]
  case breakLoop | continueLoop => cases loop <;> simp [stmt]
  all_goals simp [stmt]

theorem Builds.marks (h : site.Builds (fun _ _ s => site.Lacks s.nodes ∧
      site.program.isFaultyStmt s = false) f ps code f') : site.Marks code := by
  induction h
  case plain hs hb => exact stmt_marks hs.1 hs.2 hb _ _
  case condition s e hs he hl label loc =>
    have hvalue : site.program.isFaulty e = false := by
      cases s <;> cases he <;> simp_all [Checked.isFaultyStmt]
    have hnodes : e.nodes ⊆ s.nodes := by
      cases s <;> cases he <;> simp [nodesOfOption]
    simp [value_marks e (hs.1.mono hnodes) hvalue]
  all_goals simp_all

theorem finished_marks (h : site.Marks code) (loc : Location) :
    site.Marks (finished code loc) := by
  rw [finished]
  split
  · exact h
  · simpa using h

theorem nodes_child {s t : Stmt} (ht : t ∈ s.children) : t.nodes ⊆ s.nodes := by
  have hbody {body : List Stmt} (ht : t ∈ body) : t.nodes ⊆ nodesIn body := by
    rw [nodesIn_eq_flatMap]
    exact fun e he => mem_flatMap.mpr ⟨t, ht, he⟩
  have hstep {s : Option Stmt} (ht : t ∈ s.toList) : t.nodes ⊆ nodesInStep s := by
    cases Option.mem_toList.mp ht
    exact List.Subset.refl _
  cases s <;> simp only [Stmt.children, not_mem_nil, mem_append] at ht
  case block loc body => exact hbody ht
  case branch loc condition thenBody elseBody =>
    rcases ht with ht | ht
    · exact List.Subset.trans (hbody ht) (by simp)
    · cases elseBody
      case none => cases ht
      case some body => exact List.Subset.trans (hbody ht) (subset_append_right _ _)
  case whileLoop loc condition body =>
    exact List.Subset.trans (hbody ht) (subset_append_right _ _)
  case forLoop loc init condition update body =>
    rcases ht with (ht | ht) | ht
    · refine List.Subset.trans (hstep ht) fun e he => ?_
      simp [he]
    · exact List.Subset.trans (hbody ht) (subset_append_right _ _)
    · refine List.Subset.trans (hstep ht) fun e he => ?_
      simp [he]

theorem stmts_marks {site : Site} (f : Frame) {body : List Stmt}
    (hl : ∀ s ∈ body, site.Lacks s.nodes) (loc : Location) :
    site.Marks (finished (site.stmts none f [] body).1 loc) :=
  finished_marks (stmts_builds none f body (pieces_inherit (R := fun s => site.Lacks s.nodes)
    (fun _ hs _ ht => hs.mono (nodes_child ht)) none f body hl)).marks loc

theorem fieldCode_marks (hk : site.kind = .constructor) (hc : site.className ≠ none)
    (className : String) (f : Field Expr) : site.Marks (fieldCode site slots className f) := by
  rw [fieldCode]
  split
  case h_1 => simp
  case h_2 init _ =>
    split
    case isTrue => simp
    case isFalse h =>
      have hvalue : site.Marks (site.value slots init) :=
        value_marks init (fun hnone => absurd hnone hc) (Bool.eq_false_iff.mpr h)
      exact marks_append.mpr ⟨by simp [hvalue, hc], by simp [Marked, hk]⟩

end Site

theorem lowered_marks {items : Items} (hn : (idsIn items).Nodup)
    (hr : r ∈ lowered (Checked.ofItems items)) : r.site.Marks r.routine.code := by
  rcases mem_lowered hr with rfl | ⟨loc, name, fields, methods, -, rfl⟩ |
    ⟨className, item, hd, hr⟩
  · rw [code_loweredMain]
    refine Site.stmts_marks _ (fun s hs _ m hm => ?_) _
    obtain ⟨hs, hstatement⟩ := mem_filter.mp hs
    refine Checked.typeAt_receiver hn hs ?_ hm
    rintro _ _ _ _ rfl
    cases hstatement
  · simp only [loweredConstructor, constructorCode, Routine.ofBody_eq]
    refine Site.finished_marks (fun i hi => ?_) loc
    obtain ⟨f, -, hi⟩ := mem_flatMap.mp hi
    exact Site.fieldCode_marks rfl (Option.some_ne_none name) name f i hi
  · obtain ⟨loc, name, params, returns, isStatic, symbol, signature, rfl, -, -, -, hsite, -, heq⟩ :=
      loweredRoutine?_eq_some hr
    rw [heq, Routine.ofBody_eq]
    refine Site.stmts_marks _ (fun s hs hnone m hm => ?_) _
    rw [hsite] at hnone ⊢
    cases hnone
    refine Checked.typeAt_receiver hn hd (by simp) ?_
    rw [Stmt.nodes, nodesIn_eq_flatMap]
    exact mem_flatMap.mpr ⟨s, hs, hm⟩

end Code

end Lumen
