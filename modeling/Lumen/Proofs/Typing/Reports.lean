import Lumen.Proofs.Places
import Lumen.Proofs.Typing.Inference
import Mathlib.Data.List.Perm.Subperm

namespace Lumen

open List

theorem Expr.loc_mem_places {W : String → Prop} {e : Expr} (h : e.Formed W) :
    e.loc ∈ e.places := by
  cases e <;> first | exact h.elim | simp [Expr.loc, Expr.places]

theorem Expr.start_mem_places {W : String → Prop} (e : Expr) (h : e.Formed W) :
    e.start ∈ e.places := by
  cases e
  case binary m op left right =>
    exact mem_append_left _ (left.start_mem_places h.1)
  case invoke m object name args =>
    exact mem_append_left _ (object.start_mem_places h.1)
  case member m object name =>
    exact mem_append_left _ (object.start_mem_places h.1)
  case stray => exact h.elim
  all_goals exact Expr.loc_mem_places h

theorem locs_sublist_placesOf {W : String → Prop} (h : FormedArgs W args) :
    (args.map Expr.loc).Sublist (placesOf args) := by
  induction args
  case nil => exact .refl _
  case cons e args ih =>
    exact (singleton_sublist.mpr (Expr.loc_mem_places h.1)).append (ih h.2)

theorem places_sublist {args : List Expr} (he : e ∈ args) : e.places.Sublist (placesOf args) := by
  induction args
  case nil => cases he
  case cons first args ih =>
    cases he
    case head => exact sublist_append_left _ _
    case tail he => exact sublist_append_of_sublist_right (ih he)

theorem eq_of_mem_places {args : List Expr} (h : (placesOf args).Nodup) {e : Expr} (he : e ∈ args)
    (he' : e' ∈ args) (hl : loc ∈ e.places) (hl' : loc ∈ e'.places) : e = e' := by
  induction args
  case nil => cases he
  case cons first args ih =>
    have hapart := (nodup_append.mp h).2.2
    rw [placesOf] at h
    cases he <;> cases he'
    case head.head => rfl
    case head.tail he' => exact absurd rfl (hapart _ hl _ ((places_sublist he').subset hl'))
    case tail.head he => exact absurd rfl (hapart _ hl' _ ((places_sublist he).subset hl))
    case tail.tail he he' => exact ih (nodup_append.mp h).2.1 he he'

namespace Typing

-- A variable of the type `void` that has a value: the first report is about the type, the other
-- about the value.
def Problem.Doubles (p q : Problem) : Prop :=
  ∃ name value, p.cause = .voidVariable name ∧ q.cause = .stored value (.variable name) .void

-- Two problems, the earlier one first, that differ in kind or place, up to the one exception.
def Problem.Apart (p q : Problem) : Prop :=
  p.cause.kind = q.cause.kind → p.loc = q.loc → p.Doubles q

def Cause.isFallback : Cause → Bool
  | .nestedDefinition | .stored _ .other _ => true
  | _ => false

structure Report (places : List Location) (made : List Problem) : Prop where
  inside  : ∀ p ∈ made, p.loc ∈ places
  regular : ∀ p ∈ made, p.cause.isFallback = false
  -- A value stored in a void variable is not the first report on that variable.
  doubled : ∀ p ∈ made, ∀ name value, p.cause = .stored value (.variable name) .void →
    ⟨.voidVariable name, p.loc⟩ ∈ made
  apart   : places.Nodup → made.Pairwise Problem.Apart

namespace Report

variable {as bs : List Location} {ps qs : List Problem} {loc : Location}

theorem nil (as : List Location) : Report as [] :=
  ⟨by simp, by simp, by simp, fun _ => .nil⟩

theorem widen (h : Report as ps) (hs : as.Subperm bs) : Report bs ps where
  inside p hp := hs.subset (h.inside p hp)
  regular := h.regular
  doubled := h.doubled
  apart hn := by
    obtain ⟨cs, hperm, hsub⟩ := hs
    exact h.apart (hperm.nodup_iff.mp (hsub.nodup hn))

theorem join (h : Report as ps) (h' : Report as qs)
    (hk : as.Nodup → ∀ p ∈ ps, ∀ q ∈ qs, p.loc = q.loc → p.cause.kind ≠ q.cause.kind) :
    Report as (ps ++ qs) where
  inside := forall_mem_append.mpr ⟨h.inside, h'.inside⟩
  regular := forall_mem_append.mpr ⟨h.regular, h'.regular⟩
  doubled := forall_mem_append.mpr
    ⟨fun p hp name value e => mem_append_left _ (h.doubled p hp name value e),
      fun p hp name value e => mem_append_right _ (h'.doubled p hp name value e)⟩
  apart hn := pairwise_append.mpr ⟨h.apart hn, h'.apart hn,
    fun p hp q hq hkind hloc => absurd hkind (hk hn p hp q hq hloc)⟩

theorem append (h : Report as ps) (h' : Report bs qs) : Report (as ++ bs) (ps ++ qs) := by
  refine (h.widen (sublist_append_left _ _).subperm).join
    (h'.widen (sublist_append_right _ _).subperm) fun hn p hp q hq hloc => ?_
  exact absurd hloc ((nodup_append.mp hn).2.2 _ (h.inside p hp) _ (h'.inside q hq))

theorem around (h : Report [loc] ps) (hf : Report as fs) (h' : Report [loc] qs)
    (hk : ∀ p ∈ ps, ∀ q ∈ qs, p.cause.kind ≠ q.cause.kind) :
    Report (loc :: as) (ps ++ fs ++ qs) := by
  refine (h.append hf).join (h'.widen (sublist_append_left _ _).subperm)
    fun hn p hp q hq hloc => ?_
  cases mem_append.mp hp
  case inl hp => exact hk p hp q hq
  case inr hp =>
    rw [mem_singleton.mp (h'.inside q hq)] at hloc
    exact absurd (hloc ▸ hf.inside p hp) (nodup_cons.mp hn).1

theorem single (loc : Location) {cause : Cause} (hr : cause.isFallback = false)
    (hs : ∀ name value, cause ≠ .stored value (.variable name) .void) :
    Report [loc] [⟨cause, loc⟩] where
  inside := by simp
  regular := by simpa using hr
  doubled := by
    intro p hp name value e
    rw [mem_singleton.mp hp] at e
    exact absurd e (hs name value)
  apart _ := pairwise_singleton _ _

theorem of_ofStatement (hi : ∀ p ∈ ps, p.loc ∈ as)
    (hs : ∀ p ∈ ps, p.cause.ofStatement = false) (ha : as.Nodup → ps.Pairwise Problem.Apart) :
    Report as ps where
  inside := hi
  regular p hp := by
    have h := hs p hp
    generalize p.cause = cause at h
    cases cause <;> first | rfl | cases h
  doubled p hp name value e := by
    have h := hs p hp
    simp [e] at h
  apart := ha

end Report

-- What is reported of an expression that has a type, at its own place and where it starts: at most
-- that it has the wrong number of arguments.
def Finding.Counted (e : Expr) (f : Finding) : Prop :=
  f.type ≠ .error → ∀ p ∈ f.problems, p.loc = e.loc ∨ p.loc = e.start →
    p.cause.kind = .argumentCountMismatch

structure Finding.Fits (e : Expr) (f : Finding) : Prop where
  report  : Report e.places f.problems
  counted : e.places.Nodup → f.Counted e

theorem binaryType_error {op : BinaryOp} {left right type : Ty}
    (h : binaryType op left right = .ok type) (ht : type ≠ .error) : left ≠ .error := by
  rintro rfl
  cases h
  exact ht rfl

theorem memberType_error {env : Environment} {object type : Ty} {name : String}
    (h : env.memberType object name = .ok type) (ht : type ≠ .error) : object ≠ .error := by
  rintro rfl
  cases h
  exact ht rfl

section Infer

variable {W : String → Prop} {env : Environment}

-- A rule gives a type, or there is one problem at the place of the expression.
theorem report_ofRule {mark : Mark} {parts : List Finding} {rule : Except Cause Ty}
    {places : List Location} (hr : Strict rule)
    (hp : Report places (parts.flatMap Finding.problems)) :
    Report (places ++ [mark.loc]) (Finding.ofRule mark parts rule).problems := by
  cases rule
  case ok type => simpa [Finding.ofRule, Finding.node] using hp.append (.nil [mark.loc])
  case error cause =>
    refine hp.append (.of_ofStatement (by simp) ?_ fun _ => pairwise_singleton _ _)
    simpa using hr cause rfl

theorem problems_ofRule {mark : Mark} {parts : List Finding} {rule : Except Cause Ty}
    (h : (Finding.ofRule mark parts rule).type ≠ .error) :
    (∃ type, rule = .ok type ∧ type ≠ .error) ∧
      (Finding.ofRule mark parts rule).problems = parts.flatMap Finding.problems := by
  cases rule
  case ok type => exact ⟨⟨type, rfl, h⟩, by simp [Finding.ofRule, Finding.node]⟩
  case error => exact absurd rfl h

theorem fits_leaf {e : Expr} {mark : Mark} {rule : Except Cause Ty} (he : e.places = [mark.loc])
    (hr : Strict rule) : (Finding.ofRule mark [] rule).Fits e := by
  have hreport : Report ([] ++ [mark.loc]) (Finding.ofRule mark [] rule).problems :=
    report_ofRule hr (.nil [])
  refine ⟨he ▸ hreport, fun _ ht p hp => ?_⟩
  rw [(problems_ofRule ht).2] at hp
  cases hp

theorem argumentTypes_eq (env : Environment) (args : List Expr) :
    argumentTypes args (args.map (infer env)) = args.map fun e => ((infer env e).type, e.loc) := by
  rw [argumentTypes, zipWith_map_left, zipWith_self]

theorem mem_misfits (h : p ∈ misfits routine index params args) :
    p.cause.kind = .typeMismatch ∧ ∃ type, (type, p.loc) ∈ args ∧ type ≠ .error := by
  fun_induction misfits routine index params args
  case case1 ih =>
    obtain ⟨hk, type, hm, ht⟩ := ih h
    exact ⟨hk, type, mem_cons_of_mem _ hm, ht⟩
  case case2 index expected params found loc args rest hne ih =>
    cases h
    case head =>
      refine ⟨rfl, found, mem_cons_self, ?_⟩
      rintro rfl
      simp [Ty.assignable] at hne
    case tail h =>
      obtain ⟨hk, type, hm, ht⟩ := ih h
      exact ⟨hk, type, mem_cons_of_mem _ hm, ht⟩
  case case3 => cases h

theorem locs_misfits (routine : String) (index : Nat) (params : List Ty)
    (args : List (Ty × Location)) :
    ((misfits routine index params args).map (·.loc)).Sublist (args.map (·.2)) := by
  fun_induction misfits routine index params args
  case case1 ih => exact .cons _ ih
  case case2 ih => exact .cons_cons _ ih
  case case3 => exact nil_sublist _

variable {args : List Expr}

theorem report_all (h : ∀ e ∈ args, (infer env e).Fits e) :
    Report (placesOf args) ((args.map (infer env)).flatMap Finding.problems) := by
  induction args
  case nil => exact .nil _
  case cons e args ih =>
    obtain ⟨he, hargs⟩ := forall_mem_cons.mp h
    exact he.report.append (ih hargs)

-- What is wrong with arguments of the right number comes behind what is wrong in them.
theorem report_misfits (hf : FormedArgs W args) (h : ∀ e ∈ args, (infer env e).Fits e)
    (routine : String) (params : List Ty) :
    Report (placesOf args) ((args.map (infer env)).flatMap Finding.problems ++
      misfits routine 1 params (argumentTypes args (args.map (infer env)))) := by
  rw [argumentTypes_eq]
  have hmem {p : Problem} (hp : p ∈ misfits routine 1 params
      (args.map fun e => ((infer env e).type, e.loc))) :
      ∃ e ∈ args, p.loc = e.loc ∧ p.cause.kind = .typeMismatch ∧ (infer env e).type ≠ .error := by
    obtain ⟨hkind, type, hm, ht⟩ := mem_misfits hp
    obtain ⟨e, he, heq⟩ := mem_map.mp hm
    obtain ⟨htype, hloc⟩ := Prod.mk.inj heq
    exact ⟨e, he, hloc.symm, hkind, htype ▸ ht⟩
  have hplace {e : Expr} (he : e ∈ args) : e.loc ∈ e.places :=
    Expr.loc_mem_places (formedArgs_iff.mp hf e he)
  refine (report_all h).join (.of_ofStatement (fun p hp => ?_) misfits_ofStatement fun hn => ?_)
    fun hn p hp q hq hloc => ?_
  · obtain ⟨e, he, hloc, -⟩ := hmem hp
    exact hloc ▸ (places_sublist he).subset (hplace he)
  · have hlocs := (locs_misfits routine 1 params
      (args.map fun e => ((infer env e).type, e.loc))).nodup (by
        rw [map_map]
        exact (locs_sublist_placesOf hf).nodup hn)
    exact (pairwise_map.mp hlocs).imp fun hne _ hloc => absurd hloc hne
  · obtain ⟨e, he, hqloc, hkind, ht⟩ := hmem hq
    obtain ⟨f, hf', hp⟩ := mem_flatMap.mp hp
    obtain ⟨e', he', rfl⟩ := mem_map.mp hf'
    have hat : p.loc = e.loc := hloc.trans hqloc
    have hsame : e' = e :=
      eq_of_mem_places hn he' he ((h e' he').report.inside p hp) (hat ▸ hplace he)
    subst hsame
    rw [(h e' he').counted (hn.sublist (places_sublist he')) ht p hp (.inl hat), hkind]
    decide

theorem problems_ofCall (mark : Mark) (parts : List Finding) (routine : String)
    (types : List (Ty × Location)) (rule : Except Cause Signature) :
    (Finding.ofCall mark parts routine types rule).problems =
      parts.flatMap Finding.problems ++ (Finding.ofCall mark [] routine types rule).problems := by
  cases rule <;> simp [Finding.ofCall, Finding.node]

theorem type_ofCall (mark : Mark) (parts : List Finding) (routine : String)
    (types : List (Ty × Location)) (rule : Except Cause Signature) :
    (Finding.ofCall mark parts routine types rule).type =
      (Finding.ofCall mark [] routine types rule).type := by
  cases rule <;> rfl

section Call

variable {mark : Mark} {routine : String} {rule : Except Cause Signature}

theorem report_ofCall (mark : Mark) (routine : String) (hf : FormedArgs W args)
    (h : ∀ e ∈ args, (infer env e).Fits e) (hr : Strict rule) :
    Report (placesOf args ++ [mark.loc]) ((args.map (infer env)).flatMap Finding.problems ++
      (Finding.ofCall mark [] routine
        (argumentTypes args (args.map (infer env))) rule).problems) := by
  have hown {cause : Cause} (hc : cause.ofStatement = false) :
      Report (placesOf args ++ [mark.loc])
        ((args.map (infer env)).flatMap Finding.problems ++ [⟨cause, mark.loc⟩]) :=
    (report_all h).append
      (.of_ofStatement (by simp) (by simpa using hc) fun _ => pairwise_singleton _ _)
  cases rule
  case error cause => exact hown (hr cause rfl)
  case ok signature =>
    rw [Finding.ofCall, Finding.node, flatMap_nil, nil_append, argumentProblems]
    split
    case isTrue => exact hown rfl
    case isFalse =>
      split
      case isTrue => simpa using (report_all h).append (.nil [mark.loc])
      case isFalse =>
        simpa using (report_misfits hf h routine signature.params).append (.nil [mark.loc])

theorem counted_ofCall (hf : FormedArgs W args) (h : ∀ e ∈ args, (infer env e).Fits e)
    (hn : mark.loc ∉ placesOf args)
    (ht : (Finding.ofCall mark [] routine (argumentTypes args (args.map (infer env)))
      rule).type ≠ .error) {p : Problem}
    (hp : p ∈ (args.map (infer env)).flatMap Finding.problems ++
      (Finding.ofCall mark [] routine (argumentTypes args (args.map (infer env))) rule).problems)
    (hloc : p.loc = mark.loc) : p.cause.kind = .argumentCountMismatch := by
  cases rule
  case error => exact absurd rfl ht
  case ok signature =>
    rw [Finding.ofCall, Finding.node, flatMap_nil, nil_append, argumentProblems] at hp
    split at hp
    case isTrue =>
      cases mem_append.mp hp
      case inl hp => exact absurd (hloc ▸ (report_all h).inside p hp) hn
      case inr hp => exact mem_singleton.mp hp ▸ rfl
    case isFalse =>
      refine absurd (hloc ▸ ?_) hn
      split at hp
      case isTrue => exact (report_all h).inside p (by simpa using hp)
      case isFalse => exact (report_misfits hf h routine signature.params).inside p hp

end Call

theorem counted_of_first {first : Expr} {f : Finding} (h : f.Fits first) (hf : first.Formed W)
    {loc : Location} {others : List Location} (hn : (first.places ++ loc :: others).Nodup)
    (ht : f.type ≠ .error) {rest : List Problem} (hr : ∀ p ∈ rest, p.loc ∈ loc :: others)
    (hc : ∀ p ∈ rest, p.loc = loc → p.cause.kind = .argumentCountMismatch) :
    ∀ p ∈ f.problems ++ rest, p.loc = loc ∨ p.loc = first.start →
      p.cause.kind = .argumentCountMismatch := by
  obtain ⟨hfirst, -, hapart⟩ := nodup_append.mp hn
  intro p hp hat
  cases mem_append.mp hp
  case inl hp =>
    cases hat
    case inl hat =>
      exact absurd hat (hapart _ (h.report.inside p hp) _ mem_cons_self)
    case inr hat => exact h.counted hfirst ht p hp (.inr hat)
  case inr hp =>
    cases hat
    case inl hat => exact hc p hp hat
    case inr hat =>
      exact absurd hat.symm (hapart _ (first.start_mem_places hf) _ (hr p hp))

theorem subperm_middle (as bs : List Location) (loc : Location) :
    (as ++ (bs ++ [loc])).Subperm (as ++ loc :: bs) :=
  ((perm_append_singleton loc bs).append_left as).subperm

theorem fits_invoke {m : Mark} {object : Expr} {name routine : String} {f : Finding}
    {rule : Except Cause Signature} (ho : f.Fits object) (hfo : object.Formed W)
    (ht : f.type ≠ .error) (hf : FormedArgs W args) (h : ∀ e ∈ args, (infer env e).Fits e)
    (hr : Strict rule) :
    (Finding.ofCall m (f :: args.map (infer env)) routine
      (argumentTypes args (args.map (infer env))) rule).Fits (.invoke m object name args) := by
  have hcall := report_ofCall m routine hf h hr
  have hproblems := problems_ofCall m (f :: args.map (infer env)) routine
    (argumentTypes args (args.map (infer env))) rule
  rw [flatMap_cons, append_assoc] at hproblems
  refine ⟨?_, fun hn htype => ?_⟩
  · rw [hproblems]
    exact (ho.report.append hcall).widen (subperm_middle _ _ _)
  · rw [type_ofCall] at htype
    rw [hproblems]
    have hapart := (nodup_cons.mp (nodup_append.mp hn).2.1).1
    refine counted_of_first ho hfo hn ht (fun p hp => ?_) fun p hp => ?_
    · simpa [or_comm] using hcall.inside p hp
    · exact counted_ofCall hf h hapart htype hp

section

variable (env : Environment)

mutual

theorem infer_fits (e : Expr) (hf : e.Formed W) : (infer env e).Fits e := by
  cases e <;> rw [infer] <;> rw [Expr.Formed] at hf
  case stray => exact hf.elim
  case literal m value => exact fits_leaf rfl (strict_ok _)
  case «variable» m name => exact fits_leaf rfl (env.variableType_plain name).strict
  case receiver m => exact fits_leaf rfl env.receiverType_plain.strict
  case binary m op left right =>
    have hleft := infer_fits left hf.1
    have hright := infer_fits right hf.2
    have hparts : Report (left.places ++ right.places)
        ([infer env left, infer env right].flatMap Finding.problems) := by
      simpa using hleft.report.append hright.report
    refine ⟨(report_ofRule (binaryType_plain op _ _).strict hparts).widen ?_, fun hn ht => ?_⟩
    · rw [append_assoc]
      exact subperm_middle left.places right.places m.loc
    · obtain ⟨⟨type, hrule, htype⟩, hproblems⟩ := problems_ofRule ht
      have hapart := (nodup_cons.mp (nodup_append.mp hn).2.1).1
      rw [hproblems, flatMap_cons, flatMap_singleton]
      exact counted_of_first hleft hf.1 hn (binaryType_error hrule htype)
        (fun p hp => mem_cons_of_mem _ (hright.report.inside p hp))
        fun p hp hat => absurd (hat ▸ hright.report.inside p hp) hapart
  case unary m op operand =>
    have hoperand := infer_fits operand hf
    have hparts : Report operand.places ([infer env operand].flatMap Finding.problems) := by
      simpa using hoperand.report
    refine ⟨(report_ofRule (unaryType_plain op _).strict hparts).widen ?_,
      fun hn ht p hp hat => ?_⟩
    · exact subperm_middle [] operand.places m.loc
    · rw [(problems_ofRule ht).2, flatMap_singleton] at hp
      have hinside := hoperand.report.inside p hp
      rw [show p.loc = m.loc by simpa [Expr.loc, Expr.start] using hat] at hinside
      exact absurd hinside (nodup_cons.mp hn).1
  case member m object name =>
    have hobject := infer_fits object hf.1
    have hparts : Report object.places ([infer env object].flatMap Finding.problems) := by
      simpa using hobject.report
    refine ⟨report_ofRule (env.memberType_plain _ name).strict hparts, fun hn ht => ?_⟩
    obtain ⟨⟨type, hrule, htype⟩, hproblems⟩ := problems_ofRule ht
    rw [hproblems, flatMap_singleton, ← append_nil (Finding.problems _)]
    exact counted_of_first hobject hf.1 hn (memberType_error hrule htype) (by simp) (by simp)
  case create m type args =>
    have hargs := inferAll_fits args hf.2
    rw [inferAll_eq_map]
    refine ⟨(report_ofRule (env.createdType_strict type) (report_all hargs)).widen ?_,
      fun hn ht p hp hat => ?_⟩
    · exact subperm_middle [] (placesOf args) m.loc
    · rw [(problems_ofRule ht).2] at hp
      have hinside := (report_all hargs).inside p hp
      rw [show p.loc = m.loc by simpa [Expr.loc, Expr.start] using hat] at hinside
      exact absurd hinside (nodup_cons.mp hn).1
  case call m name args =>
    have hargs := inferAll_fits args hf.2
    rw [inferAll_eq_map]
    refine ⟨?_, fun hn ht p hp hat => ?_⟩
    · rw [problems_ofCall]
      exact (report_ofCall m name hf.2 hargs (env.routine_plain name).strict).widen
        (subperm_middle [] (placesOf args) m.loc)
    · rw [problems_ofCall] at hp
      rw [type_ofCall] at ht
      exact counted_ofCall hf.2 hargs (nodup_cons.mp hn).1 ht hp
        (by simpa [Expr.loc, Expr.start] using hat)
  case invoke m object name args =>
    have hargs := inferAll_fits args hf.2.2
    have hobject := infer_fits object hf.1
    rw [inferAll_eq_map]
    have hparts : Report (object.places ++ placesOf args)
        ((infer env object :: args.map (infer env)).flatMap Finding.problems) :=
      hobject.report.append (report_all hargs)
    split
    case h_1 objectMark className hc =>
      obtain ⟨rfl, -⟩ := Environment.namedClass?_some hc
      exact fits_invoke ⟨.nil _, fun _ _ p hp => by cases hp⟩ hf.1 (by simp) hf.2.2 hargs
        (env.staticMethod_plain className name).strict
    case h_2 =>
      dsimp only
      split
      case h_1 =>
        refine ⟨?_, fun _ ht => absurd rfl ht⟩
        rw [Finding.node, append_nil]
        exact hparts.widen ((sublist_cons_self _ _).append_left _).subperm
      case h_2 className htype =>
        exact fits_invoke hobject hf.1 (by simp [htype]) hf.2.2 hargs
          (env.method_plain _ name).strict
      case h_3 =>
        refine ⟨(report_ofRule (by simp) hparts).widen ?_,
          fun _ ht => absurd rfl ht⟩
        rw [append_assoc]
        exact (subperm_middle object.places (placesOf args) m.loc)

theorem inferAll_fits (args : List Expr) (hf : FormedArgs W args) :
    ∀ e ∈ args, (infer env e).Fits e := by
  cases args
  case nil => simp
  case cons e args =>
    exact forall_mem_cons.mpr ⟨infer_fits e hf.1, inferAll_fits args hf.2⟩

end

end

theorem inferInitial_fits (env : Environment) (declared : Option TypeName) (init : Expr)
    (hf : init.Formed W) : (inferInitial env declared init).Fits init := by
  rw [inferInitial.eq_def]
  split
  case h_1 className mark created args =>
    split
    case isTrue =>
      rw [inferAll_eq_map]
      refine ⟨?_, fun _ ht => absurd rfl ht⟩
      rw [Finding.node, append_nil]
      exact (report_all (inferAll_fits env args hf.2)).widen (sublist_cons_self _ _).subperm
    case isFalse => exact infer_fits env _ hf
  case h_2 => exact infer_fits env _ hf

end Infer

theorem Finding.Fits.demand {W : String → Prop} {f : Finding} (h : f.Fits e) (hf : e.Formed W)
    (ht : f.type ≠ .error) {cause : Cause} (hk : cause.kind = .typeMismatch)
    (hr : cause.isFallback = false)
    (hs : ∀ name value, cause ≠ .stored value (.variable name) .void) :
    Report e.places (f.problems ++ [⟨cause, e.loc⟩]) := by
  have hown := Report.single e.loc hr hs
  refine h.report.join (hown.widen ?_) fun hn p hp q hq hloc => ?_
  · exact (singleton_sublist.mpr (Expr.loc_mem_places hf)).subperm
  · rw [mem_singleton.mp hq] at hloc ⊢
    rw [h.counted hn ht p hp (.inl hloc), hk]
    decide

end Typing
end Lumen
