import Lumen.Proofs.Checked.Accepted
import Lumen.Proofs.Typing.BodyReports

namespace Lumen

open Typing List

-- The places that the two passes over an item report at.
section Places

def Stmt.classPlaces : Stmt → List Location
  | .classDef loc .. => [loc]
  | _ => []

def Stmt.routineParams : Stmt → List Location
  | .routine _ _ params .. => params.map (·.loc)
  | _ => []

def Stmt.routineHead : Stmt → List Location
  | .routine loc _ params .. => loc :: params.map (·.loc)
  | _ => []

def Stmt.routineBody : Stmt → List Location
  | .routine _ _ _ _ _ body => placesIn body
  | _ => []

def Stmt.routineChecked : Stmt → List Location
  | .routine loc _ _ _ _ body => loc :: placesIn body
  | _ => []

def Stmt.declaredPlaces : Stmt → List Location
  | .classDef _ _ fields methods => fields.map (·.loc) ++ methods.flatMap Stmt.routineHead
  | .variable loc .. | .constant loc .. => [loc]
  | s => s.routineHead

def Stmt.paramPlaces : Stmt → List Location
  | .classDef _ _ _ methods => methods.flatMap Stmt.routineParams
  | s => s.routineParams

def Stmt.mainPlaces : Stmt → List Location
  | .classDef .. | .routine .. => []
  | s => s.places

def Stmt.memberPlaces : Stmt → List Location
  | .classDef loc _ fields methods =>
    loc :: fields.flatMap placesOfField ++ methods.flatMap Stmt.routineChecked
  | _ => []

def Stmt.innerPlaces : Stmt → List Location
  | .classDef _ _ fields methods =>
    fields.flatMap (placesOfOption ·.init) ++ methods.flatMap Stmt.routineBody
  | .variable _ _ _ init => placesOfOption init
  | .constant _ _ _ value => value.places
  | .routine _ _ _ _ _ body => placesIn body
  | s => s.places

variable {W : String → Prop}

theorem append_perm_swap (a b c d : List Location) :
    ((a ++ b) ++ (c ++ d)).Perm ((a ++ c) ++ (b ++ d)) := by
  refine perm_iff_count.mpr fun loc => ?_
  simp only [count_append]
  omega

theorem fields_perm (fields : List (Field Expr)) :
    (fields.map (·.loc) ++ fields.flatMap (placesOfOption ·.init)).Perm
      (fields.flatMap placesOfField) := by
  rw [map_eq_flatMap]
  exact flatMap_append_perm fields _ _

theorem routines_perm {methods : List Stmt} (h : ∀ m ∈ methods, m.FormedRoutine W) :
    (methods.flatMap Stmt.routineHead ++ methods.flatMap Stmt.routineBody).Perm
      (placesIn methods) := by
  rw [placesIn_eq_flatMap]
  refine (flatMap_append_perm methods _ _).trans (.flatMap_left _ fun m hm => ?_)
  cases m <;> first | exact (h _ hm).elim | exact .refl _

theorem routines_perm_params {methods : List Stmt} (h : ∀ m ∈ methods, m.FormedRoutine W) :
    (methods.flatMap Stmt.routineParams ++ methods.flatMap Stmt.routineChecked).Perm
      (placesIn methods) := by
  rw [placesIn_eq_flatMap]
  refine (flatMap_append_perm methods _ _).trans (.flatMap_left _ fun m hm => ?_)
  cases m <;> first | exact (h _ hm).elim | exact perm_middle

theorem Stmt.places_perm_declared {item : Stmt} (h : item.FormedItem W) :
    (item.classPlaces ++ item.declaredPlaces ++ item.innerPlaces).Perm item.places := by
  cases item <;> try exact .refl _
  case classDef loc name fields methods =>
    refine .cons loc (.trans ?_ ((fields_perm fields).append (routines_perm h.2.2)))
    exact append_perm_swap (fields.map (·.loc)) _ _ _

theorem Stmt.places_perm_checked {item : Stmt} (h : item.FormedItem W) :
    (item.paramPlaces ++ (item.mainPlaces ++ item.memberPlaces ++ item.routineChecked)).Perm
      item.places := by
  cases item
  case classDef loc name fields methods =>
    simp only [Stmt.mainPlaces, Stmt.routineChecked, append_nil, nil_append]
    refine .trans ?_ ((routines_perm_params h.2.2).append_left
      (loc :: fields.flatMap placesOfField))
    exact perm_append_comm_assoc _ _ _
  case routine loc name params returns isStatic body => exact perm_middle
  all_goals simp [Stmt.paramPlaces, Stmt.routineParams, Stmt.mainPlaces, Stmt.memberPlaces,
    Stmt.routineChecked]

theorem placesIn_perm_declared {items : Items} (h : ∀ item ∈ items, item.FormedItem W) :
    (items.flatMap Stmt.classPlaces ++ items.flatMap Stmt.declaredPlaces ++
      items.flatMap Stmt.innerPlaces).Perm (placesIn items) := by
  rw [placesIn_eq_flatMap]
  refine .trans ?_ (.flatMap_left _ fun item hi => Stmt.places_perm_declared (h item hi))
  exact ((flatMap_append_perm items _ _).append_right _).trans
    (flatMap_append_perm items _ _)

theorem placesIn_perm_checked {items : Items} (h : ∀ item ∈ items, item.FormedItem W) :
    (items.flatMap Stmt.paramPlaces ++ (items.flatMap Stmt.mainPlaces ++
      items.flatMap Stmt.memberPlaces ++ items.flatMap Stmt.routineChecked)).Perm
        (placesIn items) := by
  rw [placesIn_eq_flatMap]
  refine .trans (.append_left _ ?_) ((flatMap_append_perm items _ _).trans
    (.flatMap_left _ fun item hi => Stmt.places_perm_checked (h item hi)))
  exact ((flatMap_append_perm items _ _).append_right _).trans
    (flatMap_append_perm items _ _)

end Places

namespace Typing

def Problem.isDeclared (p : Problem) : Bool :=
  p.cause.kind = .undefinedClass ∨ p.cause.kind = .duplicateDeclaration

namespace Analysis

theorem Reports.foldl {α : Type} {K : Problem → Prop} {f : α → List Location}
    {step : Analysis → α → Analysis} (xs : List α)
    (h : ∀ x ∈ xs, ∀ a : Analysis, a.Reports K (f x) (step a x)) (a : Analysis) :
    a.Reports K (xs.flatMap f) (xs.foldl step a) := by
  induction xs generalizing a
  case nil => exact .of_problems rfl
  case cons x xs ih =>
    obtain ⟨hx, hxs⟩ := forall_mem_cons.mp h
    exact (hx a).trans (ih hxs _)

-- What is declared before any body is checked. Of parameters anything can be reported.
section Declared

theorem paramTypes_reports (a : Analysis) (done : List Ty) (params : List Param) :
    a.Reports (·.cause.kind = .undefinedClass) (params.map (·.loc))
      (a.paramTypes done params).2 := by
  induction params generalizing a done
  case nil => exact .of_problems rfl
  case cons p params ih => exact Reports.trans (a.typeOf_notes p.type p.loc) (ih _ _)

theorem declareParams_reports (a : Analysis) (scope : Nat) (params : List Param)
    (types : List Ty) :
    a.Reports (·.cause.kind ≠ .undefinedClass) (params.map (·.loc))
      (a.declareParams scope params types) := by
  fun_induction declareParams a scope params types
  case case1 a p params type types a₁ a₂ ih =>
    have hvoid : a.Notes p.loc .typeMismatch a₁ := .reportIf a _ p.loc rfl (by simp)
    have hname : a₁.Notes p.loc .duplicateDeclaration a₂ := a₁.declareIn_notes scope _
    refine .trans ((hvoid.beside hname (by decide)).sort fun q _ hq => ?_) ih
    rcases hq with hq | hq <;> simp [hq]
  case case2 => exact .of_problems rfl

theorem declared_reports {a : Analysis} {K : Problem → Prop}
    (hd : ∀ p : Problem, p.isDeclared → K p) (h : a.Notes loc .undefinedClass b)
    (h' : b.Notes loc .duplicateDeclaration c) : a.Reports K [loc] c :=
  (h.beside h' (by decide)).sort fun p _ hk => hd p (by simpa [Problem.isDeclared] using hk)

variable {K : Problem → Prop}

section

variable (hd : ∀ p : Problem, p.isDeclared → K p)

include hd

theorem declareRoutine_reports (a : Analysis)
    (className : Option String) (owner : Nat) {item : Stmt}
    (hp : ∀ p : Problem, p.loc ∈ item.routineParams → K p) :
    a.Reports K item.routineHead (a.declareRoutine className owner item) := by
  cases item <;> try exact .of_problems rfl
  case routine loc name params returns isStatic body =>
    have hreturns := a.typeOf_notes returns loc
    have hparams := (a.typeOf returns loc).2.paramTypes_reports [] params
    have htaken (b : Analysis) (line : Nat) :
        b.Notes loc .duplicateDeclaration (b.report (.duplicate name line) loc) :=
      .report b loc rfl (by simp)
    have hfree (b : Analysis) (scope : Nat) (types : List Ty)
        (hb : b.problems = ((a.typeOf returns loc).2.paramTypes [] params).2.problems) :
        (a.typeOf returns loc).2.Reports K (params.map (·.loc))
          (b.declareParams scope params types) := by
      refine ((hparams.next hb).join (b.declareParams_reports scope params types)
        fun p q hk hk' _ => ?_).sort fun p hmem _ => hp p hmem
      rw [hk]
      exact hk'.symm
    simp only [declareRoutine]
    split
    case h_1 =>
      refine (hreturns.around hparams (htaken _ _) fun p q hp hq => ?_).sort fun p _ hk => hd p ?_
      · rw [hp, hq]
        decide
      · rcases hk with (hk | hk) | hk <;> simp [Problem.isDeclared, hk]
    case h_2 =>
      exact .trans (hreturns.sort fun p _ hk => hd p (by simp [Problem.isDeclared, hk]))
        (hfree _ _ _ rfl)

theorem declareFields_reports (a : Analysis)
    (scope : Nat) (fields : List (Field Expr)) :
    a.Reports K (fields.map (·.loc)) (a.declareFields scope fields) := by
  induction fields generalizing a
  case nil => exact .of_problems rfl
  case cons f fields ih =>
    exact (declared_reports hd (a.typeOf_notes f.type f.loc) (declareIn_notes _ scope _)).trans
      (ih _)

theorem declareItem_reports (a : Analysis)
    {item : Stmt} (scope : Option Nat) (hp : ∀ p : Problem, p.loc ∈ item.paramPlaces → K p) :
    a.Reports K item.declaredPlaces (a.declareItem item scope) := by
  cases item <;> try exact .of_problems rfl
  case classDef loc name fields methods =>
    cases scope
    case none => exact .of_problems rfl
    case some scope =>
      refine (declareFields_reports hd a scope fields).trans (.foldl methods (fun m hm a => ?_) _)
      exact declareRoutine_reports hd a (some name) scope
        fun p hmem => hp p (mem_flatMap_of_mem hm hmem)
  case routine => exact declareRoutine_reports hd a none _ hp
  case «variable» loc name type init =>
    cases type
    case none => exact declared_reports hd (.of_problems rfl) (declareIn_notes _ _ _)
    case some type => exact declared_reports hd (a.typeOf_notes type loc) (declareIn_notes _ _ _)
  case constant loc name type value =>
    exact declared_reports hd (a.typeOf_notes type loc) (declareIn_notes _ _ _)

theorem classSteps_reports
    (found : Analysis × List (Option Nat)) (items : Items) :
    found.1.Reports K (items.flatMap Stmt.classPlaces) (items.foldl classStep found).1 := by
  induction items generalizing found
  case nil => exact .of_problems rfl
  case cons item items ih =>
    refine .trans ?_ (ih _)
    cases item <;> try exact .of_problems rfl
    case classDef loc name fields methods =>
      simp only [classStep, declareClass]
      split
      · exact declared_reports hd (.of_problems rfl) (.report _ loc rfl (by simp))
      · exact .of_problems rfl

theorem declareEach_reports {items : Items}
    (hp : ∀ p : Problem, p.loc ∈ items.flatMap Stmt.paramPlaces → K p)
    (scopes : List (Option Nat)) (a : Analysis) :
    a.Reports K (items.flatMap Stmt.declaredPlaces)
      ((items.zip scopes).foldl (fun a (item, scope) => a.declareItem item scope) a) := by
  induction items generalizing a scopes
  case nil => exact .of_problems rfl
  case cons item items ih =>
    cases scopes
    case nil => exact .of_problems rfl
    case cons scope scopes =>
      refine .trans (declareItem_reports hd a scope fun p hmem => hp p ?_)
        (ih (fun p hmem => hp p ?_) scopes _)
      · exact mem_append_left _ hmem
      · exact mem_append_right _ hmem

theorem declareItems_reports {items : Items}
    (hp : ∀ p : Problem, p.loc ∈ items.flatMap Stmt.paramPlaces → K p) :
    empty.Reports K (items.flatMap Stmt.classPlaces ++ items.flatMap Stmt.declaredPlaces)
      (declareItems items) := by
  simp only [declareItems, declareClasses_eq]
  exact (Reports.after (classSteps_reports hd _ items) rfl).trans (declareEach_reports hd hp _ _)

end

end Declared

end Analysis

open Analysis

-- What is checked afterwards. At the place of a declaration nothing is reported of its name.
section Bodies

variable {W : String → Prop} {K : Problem → Prop}

section

variable (hd : ∀ p : Problem, p.isDeclared = false → K p)

include hd

theorem checkGlobal_reports (place : Place)
    (a : Analysis) (name : String) (type : Option TypeName) (loc : Location)
    (hf : FormedOption W init) (hi : ∀ p : Problem, p.loc ∈ placesOfOption init → K p) :
    a.Reports K (loc :: placesOfOption init) (checkGlobal place a name type init loc) := by
  have hown {b c : Analysis} (h : b.Notes loc .typeMismatch c) : b.Reports K [loc] c :=
    h.sort fun p _ hk => hd p (by simp [Problem.isDeclared, hk])
  have hinner {b c : Analysis} (h : b.Checks (placesOfOption init) c) :
      b.Reports K (placesOfOption init) c :=
    h.sort fun p hmem _ => hi p hmem
  simp only [checkGlobal]
  split
  case h_1 => exact .of_problems rfl
  case h_2 symbol _ =>
    split
    case isTrue =>
      cases init
      case none => exact .of_problems rfl
      case some init =>
        exact (hinner (infer_checks place a hf)).widen (sublist_cons_self _ _).subperm
    case isFalse =>
      cases init
      case none => exact hown (.reportIf a _ loc rfl (by simp))
      case some init =>
        have hvalue := hinner (inferInitial_checks place a type hf)
        cases type
        case none =>
          refine ((hvalue.trans (hown ?_)).widen (subperm_middle [] _ loc)).next rfl
          exact variableType_notes _ name _ loc
        case some type =>
          refine (hvalue.trans (hown ?_)).widen (subperm_middle [] _ loc)
          exact stored_notes _ _ _ name loc

theorem checkItem_reports (place : Place)
    (a : Analysis) {item : Stmt} (hf : item.FormedItem W)
    (hi : ∀ p : Problem, p.loc ∈ item.innerPlaces → K p) :
    a.Reports K item.mainPlaces (checkItem place a item) := by
  cases item
  case classDef | routine => exact .of_problems rfl
  case «variable» loc name type init =>
    exact checkGlobal_reports hd place a name type loc hf.2.2.1 hi
  case constant loc name type value =>
    exact checkGlobal_reports hd place a name (some type) loc hf.2.2 hi
  all_goals exact (checkStmt_checks place false a _ hf).sort fun p hmem _ => hi p hmem

theorem checkRoutine_reports
    (className : Option String) (outer : List Nat) (a : Analysis) {item : Stmt}
    (hf : ∀ name ∈ item.routineName? className, item.FormedRoutine W)
    (hi : ∀ p : Problem, p.loc ∈ item.routineBody → K p) :
    a.Reports K item.routineChecked (checkRoutine className outer a item) := by
  cases item <;> try exact .of_problems rfl
  case routine loc name params returns isStatic body =>
    simp only [checkRoutine]
    split
    case h_1 => exact .of_problems rfl
    case h_2 scope _ =>
      have hbody := checkBody_checks ⟨fullName className name, resultType a.table returns,
        if isStatic then none else className, scope :: outer⟩ false a body (hf _ rfl).2.2.2
      have hend (b : Analysis) (wrong : Bool) (type : Ty) :
          b.Notes loc .missingReturn (b.reportIf wrong (.missingReturn name type) loc) :=
        .reportIf b wrong loc rfl (by simp)
      refine .widen (.trans (hbody.sort fun p hmem _ => hi p hmem) ?_) (subperm_middle [] _ loc)
      exact (hend _ _ _).sort fun p _ hk => hd p (by simp [Problem.isDeclared, hk])

end

theorem initialField_checks (place : Place) (a : Analysis) (type : TypeName) (declared : Ty)
    (name : String) {init : Expr} (hf : init.Formed W) :
    a.Checks init.places ((a.inferInitial place (some type) init).2.checkStored declared
      (a.inferInitial place (some type) init).1 (.field name) init.loc) := by
  have hfits := inferInitial_fits (a.environment place) (some type) init hf
  simp only [checkStored, Analysis.reportIf]
  split
  case isFalse => exact inferInitial_checks place a _ hf
  case isTrue hwrong =>
    have ht : (inferInitial (a.environment place) (some type) init).type ≠ .error := by
      intro ht
      simp [Analysis.inferInitial, ht, Ty.assignable] at hwrong
    exact ⟨_, (Adds.record a _).trans (.report _ _ _),
      hfits.demand hf ht rfl rfl (by simp), fun _ _ => trivial⟩

theorem checkField_checks (place : Place) (scope : Nat) (a : Analysis) {field : Field Expr}
    (hf : FormedOption W field.init) :
    a.Checks (placesOfOption field.init) (checkField place scope a field) := by
  simp only [checkField]
  cases hfi : field.init
  case none => exact .of_problems rfl
  case some init =>
    rw [hfi] at hf
    exact initialField_checks place a field.type _ field.name hf

section

variable (hd : ∀ p : Problem, p.isDeclared = false → K p)

include hd

theorem checkClass_reports (a : Analysis)
    {item : Stmt} (hf : item.FormedItem W) (hi : ∀ p : Problem, p.loc ∈ item.innerPlaces → K p) :
    a.Reports K item.memberPlaces (checkClass a item) := by
  cases item <;> try exact .of_problems rfl
  case classDef loc name fields methods =>
    simp only [checkClass]
    split
    case h_1 => exact .of_problems rfl
    case h_2 scope _ =>
      refine Reports.widen (.trans (.foldl fields (fun f hmem b => ?_) a)
        (.foldl methods (fun m hmem b => ?_) _)) (sublist_cons_self loc _).subperm
      · have hchecks := checkField_checks ⟨fullName (some name) constructorName, .void, some name,
          [scope, SymbolTable.global]⟩ scope b (hf.2.1 f hmem).2.2.1
        exact (hchecks.sort fun p hp _ => hi p (mem_append_left _
          (mem_flatMap_of_mem hmem hp))).widen (sublist_cons_self _ _).subperm
      · exact checkRoutine_reports hd _ _ b (fun _ _ => hf.2.2 m hmem)
          fun p hp => hi p (mem_append_right _ (mem_flatMap_of_mem hmem hp))

theorem checkMain_reports (a : Analysis)
    (hf : ∀ item ∈ items, item.FormedItem W)
    (hi : ∀ p : Problem, p.loc ∈ items.flatMap Stmt.innerPlaces → K p) :
    a.Reports K (items.flatMap Stmt.mainPlaces) (checkMain items a) := by
  refine Reports.after (.foldl items (fun item hmem b => ?_) _) rfl
  exact checkItem_reports hd _ b (hf item hmem)
    fun p hp => hi p (mem_flatMap_of_mem hmem hp)

theorem checkBodies_reports
    (hf : ∀ item ∈ items, item.FormedItem W)
    (hi : ∀ p : Problem, p.loc ∈ items.flatMap Stmt.innerPlaces → K p) :
    (declareItems items).Reports K (items.flatMap Stmt.mainPlaces ++
      items.flatMap Stmt.memberPlaces ++ items.flatMap Stmt.routineChecked) (checkItems items) := by
  refine .trans (.trans (checkMain_reports hd _ hf hi) (.foldl items (fun item hmem b => ?_) _))
    (.foldl items (fun item hmem b => ?_) _)
  · exact checkClass_reports hd b (hf item hmem)
      fun p hp => hi p (mem_flatMap_of_mem hmem hp)
  · refine checkRoutine_reports hd none _ b (fun _ hn => (hf item hmem).routine hn)
      fun p hp => hi p (mem_flatMap_of_mem hmem ?_)
    cases item <;> first | exact hp | cases hp

end

end Bodies

theorem checkItems_report {W : String → Prop} {items : Items}
    (hf : ∀ item ∈ items, item.FormedItem W) :
    Report (placesIn items) (checkItems items).problems.reverse := by
  have hdeclared := placesIn_perm_declared hf
  have hchecked := placesIn_perm_checked hf
  obtain ⟨ps, hp, hps, hkp⟩ := declareItems_reports
    (K := fun p => p.loc ∈ items.flatMap Stmt.paramPlaces ∨ p.isDeclared)
    (fun _ => .inr) (fun _ => .inl)
  obtain ⟨qs, hq, hqs, hkq⟩ := checkBodies_reports
    (K := fun p => p.loc ∈ items.flatMap Stmt.innerPlaces ∨ p.isDeclared = false)
    (fun _ => .inr) hf (fun _ => .inl)
  have hmade : (checkItems items).problems.reverse = ps ++ qs := by
    rw [hq, hp]
    simp [Analysis.empty]
  rw [hmade]
  refine (hps.widen ((sublist_append_left _ _).subperm.trans hdeclared.subperm)).join
    (hqs.widen ((sublist_append_right _ _).subperm.trans hchecked.subperm))
      fun hn p hp q hq hloc => ?_
  cases hkp p hp
  case inl hparam =>
    have hapart := (nodup_append.mp (hchecked.nodup_iff.mpr hn)).2.2
    exact absurd hloc (hapart _ hparam _ (hqs.inside q hq))
  case inr hd =>
    cases hkq q hq
    case inl hinner =>
      have hapart := (nodup_append.mp (hdeclared.nodup_iff.mpr hn)).2.2
      exact absurd hloc (hapart _ (hps.inside p hp) _ hinner)
    case inr hd' =>
      intro hkind
      have hsame : p.isDeclared = q.isDeclared := by
        rw [Problem.isDeclared, hkind, Problem.isDeclared]
      exact absurd (hsame.symm.trans hd) (by simp [hd'])

end Typing

-- Sorting keeps what holds of all pairs of diagnostics, if it is about those of one place only.
theorem Diagnostic.pairwise_sorted {R : Diagnostic → Diagnostic → Prop} {ds : List Diagnostic}
    (h : ds.Pairwise R) (hR : ∀ d d', d.loc ≠ d'.loc → R d d') : (sorted ds).Pairwise R := by
  induction ds
  case nil => simp [sorted]
  case cons d ds ih =>
    obtain ⟨hd, hds⟩ := pairwise_cons.mp h
    obtain ⟨before, behind, hsorted, hrest, hlater⟩ : ∃ before behind,
        sorted (d :: ds) = before ++ d :: behind ∧ sorted ds = before ++ behind ∧
          ∀ b ∈ before, !decide (d.loc ≤ b.loc) := by
      refine mergeSort_cons (fun a b c hab hbc => ?_) (fun a b => ?_) d ds
      · simp only [decide_eq_true_eq] at hab hbc ⊢
        exact Location.le_trans hab hbc
      · simp only [Bool.or_eq_true, decide_eq_true_eq, Location.le_iff]
        omega
    have hmem {b : Diagnostic} (hb : b ∈ behind) : b ∈ ds := by
      rw [← (sorted_perm ds).mem_iff, hrest]
      exact mem_append_right _ hb
    have ih := ih hds
    rw [hrest, pairwise_append] at ih
    obtain ⟨hbefore, hbehind, hcross⟩ := ih
    rw [hsorted]
    refine pairwise_append.mpr ⟨hbefore, pairwise_cons.mpr
      ⟨fun b hb => hd b (hmem hb), hbehind⟩, fun b hb => forall_mem_cons.mpr ⟨?_, hcross b hb⟩⟩
    refine hR b d fun hloc => ?_
    have hlater := hlater b hb
    simp [hloc, Location.le_refl] at hlater

namespace Checked

theorem keys_perm (items : Items) :
    ((ofItems items).diagnostics.map fun d => (d.kind, d.loc)).Perm
      ((checkItems items).problems.reverse.map fun p => (p.cause.kind, p.loc)) := by
  refine ((Diagnostic.sorted_perm _).map _).trans ?_
  rw [map_map]
  exact .refl _

-- No two diagnostics have the same kind and place, but for variables of the type `void`: if such a
-- variable has a value that does not fit, its type and its value are reported together.
theorem diagnostics_apart (source : String) :
    ((ofItems (Parsed.ofSource source).items).diagnostics.Pairwise fun d d' =>
      d.kind = d'.kind → d.loc = d'.loc → ∃ name value,
        d = Problem.diagnostic ⟨.voidVariable name, d.loc⟩ ∧
          d' = Problem.diagnostic ⟨.stored value (.variable name) .void, d.loc⟩) ∧
    (((ofItems (Parsed.ofSource source).items).diagnostics.map fun d => (d.kind, d.loc)).Nodup ↔
      ∀ p ∈ (checkItems (Parsed.ofSource source).items).problems, ∀ name value,
        p.cause ≠ .stored value (.variable name) .void) := by
  have hreport := checkItems_report
    (Parsed.ofTokens_formed (Lexed.ofSource source).tokens.toList (Lexed.ofSource_isName source))
  have hapart := hreport.apart (Parsed.ofSource_places source)
  refine ⟨Diagnostic.pairwise_sorted (hapart.map _ ?_) fun _ _ hne _ hloc => absurd hloc hne, ?_⟩
  · rintro ⟨cause, loc⟩ ⟨cause', loc'⟩ hpair hkind hloc
    obtain ⟨name, value, rfl, rfl⟩ := hpair hkind hloc
    cases hloc
    exact ⟨name, value, rfl, rfl⟩
  · rw [(keys_perm _).nodup_iff]
    refine ⟨fun hn p hp name value hc => ?_, fun hnone => ?_⟩
    · have hp := mem_reverse.mpr hp
      have heq := inj_on_of_nodup_map hn hp (hreport.doubled p hp name value hc)
        (by rw [hc]; rfl)
      rw [heq] at hc
      cases hc
    · refine pairwise_map.mpr (hapart.imp_of_mem fun {p q} _ hq hpair hkey => ?_)
      obtain ⟨name, value, -, hc⟩ := hpair (congrArg Prod.fst hkey) (congrArg Prod.snd hkey)
      exact hnone q (mem_reverse.mp hq) name value hc

-- A variable of the type `void` with a value.
theorem diagnostics_void_twice :
    ¬((ofItems (Parsed.ofSource "void x = 1;").items).diagnostics.map
      fun d => (d.kind, d.loc)).Nodup := by
  rw [(keys_perm _).nodup_iff]
  decide +kernel

-- A class that is unknown, in the second declaration of a global and in its initial value.
theorem diagnostics_class_twice :
    [(.undefinedClass, ⟨1, 8⟩), (.undefinedClass, ⟨1, 16⟩)] ⊆
      (ofItems (Parsed.ofSource "int x; Foo x = new Foo();").items).diagnostics.map
        fun d => (d.kind, d.loc) := by
  refine List.Subset.trans ?_ (keys_perm _).symm.subset
  decide +kernel

end Checked

end Lumen
