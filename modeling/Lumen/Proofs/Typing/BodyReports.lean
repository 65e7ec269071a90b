import Lumen.Proofs.Typing.Advance
import Lumen.Proofs.Typing.Reports

namespace Lumen.Typing

open List

namespace Analysis

def Adds (a : Analysis) (made : List Problem) (a' : Analysis) : Prop :=
  a'.problems = made.reverse ++ a.problems

namespace Adds

variable {a b c : Analysis} {ps qs : List Problem}

theorem of_problems (h : b.problems = a.problems) : a.Adds [] b :=
  h

theorem trans (h : a.Adds ps b) (h' : b.Adds qs c) : a.Adds (ps ++ qs) c := by
  rw [Adds, h', h, reverse_append, append_assoc]

theorem report (a : Analysis) (cause : Cause) (loc : Location) :
    a.Adds [⟨cause, loc⟩] (a.report cause loc) :=
  rfl

theorem record (a : Analysis) (f : Finding) : a.Adds f.problems (a.record f) :=
  rfl

theorem next (h : a.Adds ps b) (hc : c.problems = b.problems) : a.Adds ps c :=
  hc.trans h

end Adds

-- A part of the program with these places has been checked, and all problems met are of this sort.
def Reports (a : Analysis) (K : Problem → Prop) (places : List Location) (a' : Analysis) : Prop :=
  ∃ made, a.Adds made a' ∧ Report places made ∧ ∀ p ∈ made, K p

def Notes (a : Analysis) (loc : Location) (kind : Diagnostic.Kind) (a' : Analysis) : Prop :=
  a.Reports (·.cause.kind = kind) [loc] a'

def Checks (a : Analysis) (places : List Location) (a' : Analysis) : Prop :=
  a.Reports (fun _ => True) places a'

namespace Reports

variable {a b c : Analysis} {as bs : List Location} {K K' : Problem → Prop}

theorem of_problems (h : b.problems = a.problems) : a.Reports K as b :=
  ⟨[], .of_problems h, .nil _, by simp⟩

theorem trans (h : a.Reports K as b) (h' : b.Reports K bs c) : a.Reports K (as ++ bs) c := by
  obtain ⟨ps, hp, hps, hkp⟩ := h
  obtain ⟨qs, hq, hqs, hkq⟩ := h'
  exact ⟨ps ++ qs, hp.trans hq, hps.append hqs, forall_mem_append.mpr ⟨hkp, hkq⟩⟩

theorem next (h : a.Reports K as b) (hc : c.problems = b.problems) : a.Reports K as c := by
  obtain ⟨ps, hp, hps⟩ := h
  exact ⟨ps, hp.next hc, hps⟩

theorem after (h : b.Reports K as c) (ha : b.problems = a.problems) : a.Reports K as c := by
  obtain ⟨ps, hp, hps⟩ := h
  exact ⟨ps, by rw [Adds, ← ha]; exact hp, hps⟩

theorem widen (h : a.Reports K as b) (hs : as.Subperm bs) : a.Reports K bs b := by
  obtain ⟨ps, hp, hps, hk⟩ := h
  exact ⟨ps, hp, hps.widen hs, hk⟩

theorem sort (h : a.Reports K as b) (hk : ∀ p, p.loc ∈ as → K p → K' p) : a.Reports K' as b := by
  obtain ⟨ps, hp, hps, hkp⟩ := h
  exact ⟨ps, hp, hps, fun p hp => hk p (hps.inside p hp) (hkp p hp)⟩

theorem join (h : a.Reports K as b) (h' : b.Reports K' as c)
    (hk : ∀ p q, K p → K' q → p.loc = q.loc → p.cause.kind ≠ q.cause.kind) :
    a.Reports (fun p => K p ∨ K' p) as c := by
  obtain ⟨ps, hp, hps, hkp⟩ := h
  obtain ⟨qs, hq, hqs, hkq⟩ := h'
  refine ⟨ps ++ qs, hp.trans hq, hps.join hqs fun _ p hp q hq => hk p q (hkp p hp) (hkq q hq), ?_⟩
  exact forall_mem_append.mpr ⟨fun p hp => .inl (hkp p hp), fun p hp => .inr (hkq p hp)⟩

theorem around {K'' : Problem → Prop} (h : a.Reports K [loc] b) (hf : b.Reports K'' as c)
    (h' : c.Reports K' [loc] d) (hk : ∀ p q, K p → K' q → p.cause.kind ≠ q.cause.kind) :
    a.Reports (fun p => (K p ∨ K' p) ∨ K'' p) (loc :: as) d := by
  obtain ⟨ps, hp, hps, hkp⟩ := h
  obtain ⟨fs, hf, hfs, hkf⟩ := hf
  obtain ⟨qs, hq, hqs, hkq⟩ := h'
  refine ⟨ps ++ fs ++ qs, (hp.trans hf).trans hq,
    hps.around hfs hqs fun p hp q hq => hk p q (hkp p hp) (hkq q hq), ?_⟩
  simp only [forall_mem_append]
  exact ⟨⟨fun p hp => .inl (.inl (hkp p hp)), fun p hp => .inr (hkf p hp)⟩,
    fun p hp => .inl (.inr (hkq p hp))⟩

theorem checks (h : a.Reports K as b) : a.Checks as b :=
  h.sort fun _ _ _ => trivial

end Reports

namespace Notes

variable {a b c d : Analysis} {loc : Location} {kind kind' : Diagnostic.Kind}

theorem report (a : Analysis) {cause : Cause} (loc : Location) (hr : cause.isFallback = false)
    (hs : ∀ name value, cause ≠ .stored value (.variable name) .void) :
    a.Notes loc cause.kind (a.report cause loc) :=
  ⟨_, .report a cause loc, .single loc hr hs, by simp⟩

theorem reportIf (a : Analysis) {cause : Cause} (wrong : Bool) (loc : Location)
    (hr : cause.isFallback = false)
    (hs : ∀ name value, cause ≠ .stored value (.variable name) .void) :
    a.Notes loc cause.kind (a.reportIf wrong cause loc) := by
  cases wrong
  case false => exact .of_problems rfl
  case true => exact .report a loc hr hs

theorem beside (h : a.Notes loc kind b) (h' : b.Notes loc kind' c) (hne : kind ≠ kind') :
    a.Reports (fun p => p.cause.kind = kind ∨ p.cause.kind = kind') [loc] c :=
  h.join h' fun p q hp hq _ => by rwa [hp, hq]

end Notes

-- A declaration: what is wrong with its type, in its value, with its value and with its name.
theorem Checks.declaration {a : Analysis} (h₁ : a.Notes loc .undefinedClass b)
    (h₂ : b.Checks places c) (h₃ : c.Notes loc .typeMismatch d)
    (h₄ : d.Notes loc .duplicateDeclaration e) : a.Checks (loc :: places) e := by
  refine (h₁.around h₂ (h₃.beside h₄ (by decide)) fun p q hp hq => ?_).checks
  rw [hp]
  rcases hq with hq | hq <;> simp [hq]

theorem typeOf_notes (a : Analysis) (type : TypeName) (loc : Location) :
    a.Notes loc .undefinedClass (a.typeOf type loc).2 := by
  rw [typeOf]
  cases hw : writtenType a.table.isClass type
  case ok => exact .of_problems rfl
  case error cause =>
    cases type <;> simp only [writtenType, reduceCtorEq] at hw
    case named name =>
      split at hw
      case isTrue => cases hw
      case isFalse =>
        cases hw
        exact .report a loc rfl (by simp)

theorem declareIn_notes (a : Analysis) (scope : Nat) (symbol : Symbol) :
    a.Notes symbol.loc .duplicateDeclaration (a.declareIn scope symbol) := by
  rw [declareIn]
  split
  case h_1 => exact .report a symbol.loc rfl (by simp)
  case h_2 => exact .of_problems rfl

theorem declare_notes (place : Place) (a : Analysis) (symbol : Symbol) :
    a.Notes symbol.loc .duplicateDeclaration (a.declare place symbol) := by
  rw [declare]
  split
  case h_1 => exact a.declareIn_notes place.home symbol
  case h_2 =>
    split
    case h_1 => exact .report a symbol.loc rfl (by simp)
    case h_2 => exact .of_problems rfl

-- The value of a variable: here a void variable is reported twice.
theorem stored_notes (a : Analysis) (declared value : Ty) (name : String) (loc : Location) :
    a.Notes loc .typeMismatch
      ((a.reportIf (declared = .void) (.voidVariable name) loc).checkStored declared value
        (.variable name) loc) := by
  by_cases hv : declared = .void
  case neg =>
    simp only [hv, decide_false]
    exact .reportIf a _ loc rfl (by simp [hv])
  case pos =>
    subst hv
    rw [decide_eq_true rfl]
    cases hs : Ty.assignable .void value
    case true =>
      rw [checkStored, hs]
      exact .report a loc rfl (by simp)
    case false =>
      rw [checkStored, hs]
      refine ⟨[⟨.voidVariable name, loc⟩, ⟨.stored value (.variable name) .void, loc⟩], rfl,
        ⟨by simp, by simp [Cause.isFallback], ?_, fun _ => ?_⟩, by simp [Cause.kind]⟩
      · intro p hp name' value' e
        rw [mem_cons, mem_singleton] at hp
        rcases hp with rfl | rfl
        · cases e
        · cases e
          exact mem_cons_self
      · exact pairwise_pair.mpr fun _ _ => ⟨name, value, rfl, rfl⟩

theorem variableType_notes (a : Analysis) (name : String) (value : Ty) (loc : Location) :
    a.Notes loc .typeMismatch (a.variableType name value loc).2 := by
  cases value
  case void | null => exact .report a loc rfl (by simp)
  all_goals exact .of_problems rfl

theorem Reports.inBlock {a : Analysis} {K : Problem → Prop} (place : Place)
    (h : a.enter.Reports K places b) : a.Reports K places (b.leave place) :=
  (h.after rfl).next (problems_leave place b)

end Analysis

open Analysis

section Body

variable {W : String → Prop} (place : Place)

theorem infer_checks (a : Analysis) {e : Expr} (hf : e.Formed W) :
    a.Checks e.places (a.infer place e).2 :=
  ⟨_, .record a _, (infer_fits _ e hf).report, fun _ _ => trivial⟩

theorem inferInitial_checks (a : Analysis) (declared : Option TypeName) {e : Expr}
    (hf : e.Formed W) : a.Checks e.places (a.inferInitial place declared e).2 :=
  ⟨_, .record a _, (inferInitial_fits _ declared e hf).report, fun _ _ => trivial⟩

theorem checkVariable_checks (a : Analysis) (name : String) (type : Option TypeName)
    (init : Option Expr) (loc : Location) (hf : FormedOption W init) :
    ∃ b c, a.Notes loc .undefinedClass b ∧ b.Checks (placesOfOption init) c ∧
      c.Notes loc .typeMismatch (checkVariable place a name type init loc).2 := by
  cases type <;> cases init
  case none.none =>
    exact ⟨a, a, .of_problems rfl, .of_problems rfl, .of_problems rfl⟩
  case none.some init =>
    exact ⟨a, _, .of_problems rfl, inferInitial_checks place a none hf,
      variableType_notes _ name _ loc⟩
  case some.none type =>
    exact ⟨_, _, a.typeOf_notes type loc, .of_problems rfl, .reportIf _ _ loc rfl (by simp)⟩
  case some.some type init =>
    exact ⟨_, _, a.typeOf_notes type loc, inferInitial_checks place _ (some type) hf,
      stored_notes _ _ _ name loc⟩

theorem checkCondition_checks (a : Analysis) {e : Expr} (hf : e.Formed W) :
    a.Checks e.places (checkCondition place a e) := by
  have hfits := infer_fits (a.environment place) e hf
  simp only [checkCondition, Analysis.reportIf]
  split
  case isFalse => exact infer_checks place a hf
  case isTrue hwrong =>
    have ht : (infer (a.environment place) e).type ≠ .error := by
      intro ht
      simp [Analysis.infer, ht, Ty.isError] at hwrong
    exact ⟨_, (Adds.record a _).trans (.report _ _ _),
      hfits.demand hf ht rfl rfl (by simp), fun _ _ => trivial⟩

theorem isFallback_stored {target : Expr} (ht : target.isTarget) (value expected : Ty) :
    (Cause.stored value (destination target) expected).isFallback = false := by
  cases target <;> first | rfl | cases ht

theorem destination_ne_variable (target : Expr) (name : String) :
    destination target ≠ .variable name := by
  cases target <;> simp [destination]

-- What is wrong with an assignment as such. It is reported where the target starts.
theorem assign_report {f g : Finding} (hf : f.Fits target) (hg : g.Fits value)
    (hft : target.Formed W) {cause : Cause}
    (hk : cause.kind = .constantAssignment ∨ f.type ≠ .error ∧ (cause.kind = .typeMismatch ∨
      cause.kind = .invalidOperator))
    (hsevere : f.Severe) (hr : cause.isFallback = false)
    (hs : ∀ name value, cause ≠ .stored value (.variable name) .void) :
    Report ((if target.start = loc then [] else [loc]) ++ target.places ++ value.places)
      (f.problems ++ g.problems ++ [⟨cause, loc⟩]) := by
  have hparts := hf.report.append hg.report
  have hown := Report.single loc hr hs
  split
  case isFalse => exact (hparts.append hown).widen perm_append_comm.subperm
  case isTrue hstart =>
    have hmem : loc ∈ target.places := hstart ▸ target.start_mem_places hft
    refine hparts.join (hown.widen ?_) fun hn p hp q hq hloc => ?_
    · exact (singleton_sublist.mpr (mem_append_left _ hmem)).subperm
    · obtain ⟨hnt, -, hapart⟩ := nodup_append.mp hn
      rw [mem_singleton.mp hq] at hloc ⊢
      cases mem_append.mp hp
      case inr hp => exact absurd hloc.symm (hapart _ hmem _ (hg.report.inside p hp))
      case inl hp =>
        rcases hk with hk | ⟨ht, hk⟩
        · rw [hk]
          exact Cause.kind_ne_constantAssignment (hsevere p hp)
        · rw [hf.counted hnt ht p hp (.inr (hloc.trans hstart.symm))]
          rcases hk with hk | hk <;> simp [hk]

theorem checkAssign_checks (a : Analysis) {target : Expr} (op : Option BinaryOp) {value : Expr}
    (loc : Location) (ht : target.isTarget) (hft : target.Formed W) (hfv : value.Formed W) :
    a.Checks (Stmt.assign loc target op value).places
      (checkAssign place a target op value loc) := by
  let f := infer (a.environment place) target
  let b := (a.infer place target).2
  let g := infer (b.environment place) value
  let c := (b.infer place value).2
  have hf : f.Fits target := infer_fits _ target hft
  have hg : g.Fits value := infer_fits _ value hfv
  have hparts : a.Adds (f.problems ++ g.problems) c := (Adds.record a f).trans (.record b g)
  have hown {cause : Cause} (hk : cause.kind = .constantAssignment ∨
      f.type ≠ .error ∧ (cause.kind = .typeMismatch ∨ cause.kind = .invalidOperator))
      (hr : cause.isFallback = false)
      (hs : ∀ name value, cause ≠ .stored value (.variable name) .void) :
      a.Checks (Stmt.assign loc target op value).places (c.report cause loc) :=
    ⟨_, hparts.trans (.report c cause loc),
      assign_report hf hg hft hk (infer_severe _ target) hr hs, fun _ _ => trivial⟩
  have hnone : a.Checks (Stmt.assign loc target op value).places c := by
    refine ⟨_, hparts, (hf.report.append hg.report).widen ?_, fun _ _ => trivial⟩
    rw [Stmt.places, append_assoc]
    exact (sublist_append_right _ _).subperm
  have hstored (hte : f.type ≠ .error) (type : Ty) :
      a.Checks (Stmt.assign loc target op value).places
        (c.checkStored f.type type (destination target) loc) := by
    rw [checkStored, Analysis.reportIf]
    split
    case isFalse => exact hnone
    case isTrue =>
      refine hown (.inr ⟨hte, .inl rfl⟩) (isFallback_stored ht _ _) fun name v e => ?_
      injection e with _ e
      exact destination_ne_variable target name e
  simp only [checkAssign]
  split
  case h_1 => exact hown (.inl rfl) rfl (by simp)
  case h_2 =>
    split
    case isTrue => exact hnone
    case isFalse herror =>
      have hte : f.type ≠ .error := by
        intro e
        exact herror (Bool.or_eq_true_iff.mpr (.inl (Ty.isError_iff.mpr e)))
      split
      case h_1 => exact hstored hte _
      case h_2 =>
        split
        case h_1 => exact hown (.inr ⟨hte, .inr rfl⟩) rfl (by simp)
        case h_2 => exact hstored hte _

theorem checkResult_checks (a : Analysis) (value : Option Expr) (loc : Location)
    (hf : FormedOption W value) :
    a.Checks (loc :: placesOfOption value) (checkResult place a value loc) := by
  cases value
  case none => exact (Notes.reportIf a _ loc rfl (by simp)).checks
  case some value =>
    have hvalue := infer_checks place a hf
    have hown (a : Analysis) {b : Analysis} (h : a.Notes loc .typeMismatch b)
        {places : List Location} {c : Analysis} (hc : c.Checks places a) :
        c.Checks (loc :: places) b :=
      .declaration (.of_problems rfl) hc h (.of_problems rfl)
    simp only [checkResult]
    split
    case isTrue => exact hown _ (.report _ loc rfl (by simp)) hvalue
    case isFalse => exact hown _ (.reportIf _ _ loc rfl (by simp)) hvalue

mutual

theorem checkStmt_checks (inLoop : Bool) (a : Analysis) (s : Stmt) (hf : s.Formed W) :
    a.Checks s.places (checkStmt place inLoop a s) := by
  cases s <;> rw [Stmt.Formed] at hf <;> simp only [checkStmt]
  case classDef | routine | bare => exact hf.elim
  case «variable» loc name type init =>
    obtain ⟨b, c, hb, hc, hd⟩ := checkVariable_checks place a name type init loc hf.2.2.1
    exact .declaration hb hc hd (declare_notes place _ _)
  case constant loc name type value =>
    obtain ⟨b, c, hb, hc, hd⟩ :=
      checkVariable_checks place a name (some type) (some value) loc hf.2.2
    exact .declaration hb hc hd (declare_notes place _ _)
  case block loc body => exact .inBlock place (checkBody_checks inLoop _ body hf)
  case assign loc target op value =>
    exact checkAssign_checks place a op loc hf.1 hf.2.2.1 hf.2.2.2
  case result loc value => exact checkResult_checks place a value loc hf
  case branch loc condition thenBody elseBody =>
    exact ((checkCondition_checks place a hf.1).trans
      (.inBlock place (checkBody_checks inLoop _ thenBody hf.2.1))).trans
        (checkElse_checks inLoop _ elseBody hf.2.2)
  case whileLoop loc condition body =>
    exact (checkCondition_checks place a hf.1).trans
      (.inBlock place (checkBody_checks true _ body hf.2))
  case forLoop loc init condition update body =>
    obtain ⟨-, hinit, hcondition, -, hupdate, hbody⟩ := hf
    have hstart := checkStep_checks inLoop a.enter init hinit
    -- The rest of the loop, behind its condition.
    have hround {b : Analysis} {places : List Location} (hb : a.enter.Checks places b) :=
      Reports.inBlock place ((hb.trans (checkStep_checks inLoop b update hupdate)).trans
        (.inBlock place (checkBody_checks true _ body hbody)))
    cases condition
    case none => exact hround (hstart.trans (.of_problems rfl))
    case some condition => exact hround (hstart.trans (checkCondition_checks place _ hcondition))
  case breakLoop loc => exact (Notes.reportIf a _ loc rfl (by simp)).checks
  case continueLoop loc => exact (Notes.reportIf a _ loc rfl (by simp)).checks
  case evaluate loc e => exact infer_checks place a hf

theorem checkBody_checks (inLoop : Bool) (a : Analysis) (body : List Stmt)
    (hf : FormedBody W body) : a.Checks (placesIn body) (checkBody place inLoop a body) := by
  cases body
  case nil => exact .of_problems rfl
  case cons s rest =>
    rw [checkBody]
    exact (checkStmt_checks inLoop a s hf.1).trans (checkBody_checks inLoop _ rest hf.2)

theorem checkElse_checks (inLoop : Bool) (a : Analysis) (body : Option (List Stmt))
    (hf : FormedElse W body) : a.Checks (placesInElse body) (checkElse place inLoop a body) := by
  cases body
  case none => exact .of_problems rfl
  case some body => exact .inBlock place (checkBody_checks inLoop _ body hf)

theorem checkStep_checks (inLoop : Bool) (a : Analysis) (s : Option Stmt)
    (hf : FormedStep W s) : a.Checks (placesInStep s) (checkStep place inLoop a s) := by
  cases s
  case none => exact .of_problems rfl
  case some s => exact checkStmt_checks inLoop a s hf

end

end Body

end Lumen.Typing
