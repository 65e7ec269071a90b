import Lumen.Proofs.Execution.Labels
import Lumen.Proofs.Execution.Values

namespace Lumen

open Typing Code

namespace Code

-- Where some code stands in that of its routine, and what is behind it. The innermost loop around
-- it has its labels.
structure Stands (code : List Instruction) (loop : Option Loop) (part left : List Instruction) :
    Prop where
  nodup  : (labelsOf code).Nodup
  suffix : part ++ left <:+ code
  opened : ∀ lp ∈ loop, (codeFrom? (some lp.next) code).isSome ∧
    (codeFrom? (some lp.stop) code).isSome

namespace Stands

variable {code part a b left : List Instruction} {loop : Option Loop}

theorem first (h : Stands code loop (a ++ b) left) : Stands code loop a (b ++ left) :=
  ⟨h.nodup, List.append_assoc a b left ▸ h.suffix, h.opened⟩

theorem last (h : Stands code loop (a ++ b) left) : Stands code loop b left :=
  ⟨h.nodup, (List.suffix_append a (b ++ left)).trans (List.append_assoc a b left ▸ h.suffix),
    h.opened⟩

theorem tail (h : Stands code loop (i :: a) left) : Stands code loop a left :=
  last (a := [i]) h

theorem inside {lp : Loop} (h : Stands code loop a left)
    (hnext : Code.codeFrom? (some lp.next) code = some x)
    (hstop : Code.codeFrom? (some lp.stop) code = some y) : Stands code (some lp) a left := by
  refine ⟨h.nodup, h.suffix, ?_⟩
  rintro _ ⟨⟩
  rw [hnext, hstop]
  exact ⟨rfl, rfl⟩

theorem codeFrom? (h : Stands code loop (.place label loc :: a) left) :
    codeFrom? (some label) code = some (.place label loc :: (a ++ left)) :=
  codeFrom?_of_suffix h.nodup h.suffix

end Stands

-- Where control is when a part of a body has ended, if `left` is behind the code of that part.
inductive Exits {V : Type} (code : List Instruction) (loop : Option Loop)
    (left : List Instruction) : Outcome V → List Instruction → List V → Prop
  | normal : Exits code loop left .normal left []
  | broken {lp : Loop} {there : List Instruction} (hl : lp ∈ loop)
      (ht : codeFrom? (some lp.stop) code = some there) : Exits code loop left .broken there []
  | continued {lp : Loop} {there : List Instruction} (hl : lp ∈ loop)
      (ht : codeFrom? (some lp.next) code = some there) : Exits code loop left .continued there []
  | returned {there : List Instruction} {stack : List V} {result : Option V}
      (hr : Returns there stack result) : Exits code loop left (.returned result) there stack

namespace Site

variable (site : Site) (l : Layout)

def loopAt (names : Names) (start : Nat) (lp : Loop) (next : Nat) (loc : Location)
    (condition : Option Expr) (body : List Stmt) (turn : List Instruction) : List Instruction :=
  .place start loc :: (site.header (l.slots names) lp.stop loc condition ++
    (site.bodyAt l names.enter (some lp) next body ++
      (turn ++ [.jump .jump start loc, .place lp.stop loc])))

inductive Lays (names : Names) (loop : Option Loop) : Phrase → List Instruction → Prop
  | stmt (next : Nat) (s : Stmt) : Lays names loop (.stmt s) (site.stmtAt l names loop next s)
  | body (next : Nat) (body : List Stmt) :
    Lays names loop (.body body) (site.bodyAt l names loop next body)
  | whileLoop (start stop next : Nat) (loc : Location) (condition : Option Expr)
      (body : List Stmt) :
    Lays names loop (.loop condition none body)
      (site.loopAt l names start ⟨start, stop⟩ next loc condition body [])
  | forLoop (start : Nat) (lp : Loop) (next rounds : Nat) (loc : Location)
      (condition : Option Expr) (update : Option Stmt) (body : List Stmt) :
    Lays names loop (.loop condition update body)
      (site.loopAt l names start lp next loc condition body
        (.place lp.next loc :: site.bodyAt l names loop rounds update.toList))

theorem bodyAt_toList (names : Names) (loop : Option Loop) (next : Nat) (s : Option Stmt) :
    site.bodyAt l names loop next s.toList = site.stepAt l names loop next s := by
  cases s <;> simp [bodyAt, stepAt]

theorem stmtAt_declaration (names : Names) (loop : Option Loop) (next : Nat) {s : Stmt}
    (h : s.declaration? = some d) :
    ∃ type, site.stmtAt l names loop next s = site.initialAt l names d.name type d.loc d.init := by
  cases s <;> cases h
  case «variable» loc name type init => exact ⟨site.variableType type init, by rw [stmtAt]⟩
  case constant loc name type value => exact ⟨Ty.ofName type, by rw [stmtAt]⟩

theorem stmtAt_branch (names : Names) (loop : Option Loop) (next : Nat) (loc : Location)
    (condition : Expr) (thenBody : List Stmt) (elseBody : Option (List Stmt)) :
    site.stmtAt l names loop next (.branch loc condition thenBody elseBody) =
      site.header (l.slots names) next loc (some condition) ++
        (site.bodyAt l names.enter loop (next + 1) thenBody ++
          site.elseAt l (names.skip (declarationsIn thenBody).length) loop next
            (next + 1 + labelsIn thenBody) loc elseBody) := by
  simp [stmtAt, header]

theorem lays_whileLoop (names : Names) (loop : Option Loop) (next : Nat) (loc : Location)
    (condition : Expr) (body : List Stmt) :
    site.Lays l names loop (.loop (some condition) none body)
      (site.stmtAt l names loop next (.whileLoop loc condition body)) := by
  have hcode : site.stmtAt l names loop next (.whileLoop loc condition body) =
      site.loopAt l names next ⟨next, next + 1⟩ (next + 2) loc (some condition) body [] := by
    simp [stmtAt, loopAt, header]
  rw [hcode]
  exact .whileLoop ..

theorem stmtAt_forLoop (names : Names) (loop : Option Loop) (next : Nat) (loc : Location)
    (init : Option Stmt) (condition : Option Expr) (update : Option Stmt) (body : List Stmt) :
    ∃ part, site.stmtAt l names loop next (.forLoop loc init condition update body) =
        site.bodyAt l names.enter loop next init.toList ++ part ∧
      site.Lays l (names.enter.afterStep init) loop (.loop condition update body) part := by
  refine ⟨_, ?_, .forLoop (next + labelsInStep init)
    ⟨next + labelsInStep init + 1, next + labelsInStep init + 2⟩ (next + labelsInStep init + 3)
    (next + labelsInStep init + 3 + labelsIn body) loc condition update body⟩
  simp [stmtAt, loopAt, bodyAt_toList]

end Site
end Code

namespace Activation

variable {V S : Type} (a : Activation V S) (kind : Routine.Kind) (l : Layout)

structure Needed (names : Names) (e : Expr) : Prop extends a.Sure names e where
  value : a.program.typeOf e ≠ .void

structure Starts (names : Names) (init : Option Expr) : Prop where
  finds : a.Finds kind l names
  cell  : names.next < l.declared.length
  init  : ∀ e ∈ init, a.Needed names e

structure Decides (names : Names) (condition : Option Expr) : Prop where
  finds     : a.Finds kind l names
  condition : ∀ e ∈ condition, a.Needed names e

end Activation

section Runnable

variable {V S : Type} (a : Activation V S) (kind : Routine.Kind) (l : Layout)

mutual

def Stmt.Runnable (names : Names) (inLoop : Bool) : Stmt → Prop
  | .variable _ _ _ init => a.Starts kind l names init
  | .constant _ _ _ value => a.Starts kind l names (some value)
  | .block _ body => RunnableBody names.enter inLoop body
  | .assign _ target _ value =>
    a.Finds kind l names ∧ a.Sure names target ∧ a.Needed names value
  | .result _ value => a.Decides kind l names value
  | .branch _ condition thenBody elseBody =>
    a.Decides kind l names (some condition) ∧ RunnableBody names.enter inLoop thenBody ∧
      RunnableElse (names.skip (declarationsIn thenBody).length) inLoop elseBody
  | .whileLoop _ condition body =>
    a.Decides kind l names (some condition) ∧ RunnableBody names.enter true body
  | .forLoop _ init condition update body =>
    RunnableStep names.enter inLoop init ∧
      a.Decides kind l (names.enter.afterStep init) condition ∧
      RunnableStep (names.enter.afterStep init) inLoop update ∧
      RunnableBody (names.enter.afterStep init).enter true body
  | .breakLoop _ | .continueLoop _ => inLoop = true
  | .evaluate _ e => a.Finds kind l names ∧ a.Sure names e
  | .classDef .. | .routine .. | .bare _ => False

def RunnableBody (names : Names) (inLoop : Bool) : List Stmt → Prop
  | [] => True
  | s :: rest => s.Runnable names inLoop ∧ RunnableBody (names.after s) inLoop rest

def RunnableElse (names : Names) (inLoop : Bool) : Option (List Stmt) → Prop
  | none => True
  | some body => RunnableBody names.enter inLoop body

def RunnableStep (names : Names) (inLoop : Bool) : Option Stmt → Prop
  | none => True
  | some s => s.Runnable names inLoop

end

def Phrase.Runnable (names : Names) (inLoop : Bool) : Phrase → Prop
  | .stmt s => s.Runnable a kind l names inLoop
  | .body stmts => RunnableBody a kind l names inLoop stmts
  | .loop condition update stmts =>
    a.Decides kind l names condition ∧ RunnableBody a kind l names inLoop update.toList ∧
      RunnableBody a kind l names.enter true stmts

variable {a kind l} {names : Names} {inLoop : Bool}

theorem Stmt.Runnable.starts {s : Stmt} (h : s.Runnable a kind l names inLoop)
    (hd : s.declaration? = some d) : a.Starts kind l names d.init := by
  cases s <;> cases hd <;> exact h

theorem RunnableStep.toList (h : RunnableStep a kind l names inLoop s) :
    RunnableBody a kind l names inLoop s.toList := by
  cases s
  case none => trivial
  case some s => exact ⟨h, trivial⟩

theorem RunnableElse.getD (h : RunnableElse a kind l names inLoop body) :
    RunnableBody a kind l names.enter inLoop (body.getD []) := by
  cases body
  case none => trivial
  case some body => exact h

end Runnable

namespace Activation

variable {V S : Type} (a : Activation V S) (kind : Routine.Kind) (l : Layout)
  (code : List Instruction)

def Ends (loop : Option Loop) (left : List Instruction) (o : Outcome V) (st : Store V S)
    (start : List Instruction × Machine V S) : Prop :=
  ∃ there stack slots, Reaches a.meaning code start (there, ⟨stack, slots, st.state⟩) ∧
    a.Holds l st.cells slots ∧ Exits code loop left o there stack

def Simulated (names : Names) (p : Phrase) (st : Store V S) (o : Outcome V) (st' : Store V S) :
    Prop :=
  ∀ {loop : Option Loop} {part left : List Instruction} {slots : Nat → V},
    p.Runnable a kind l names loop.isSome → (a.site kind).Lays l names loop p part →
    Stands code loop part left → a.Holds l st.cells slots →
    a.Ends l code loop left o st' (part ++ left, ⟨[], slots, st.state⟩)

variable {a kind l code} {loop : Option Loop} {left : List Instruction} {o : Outcome V}
  {names : Names} {st st' st₁ : Store V S} {slots : Nat → V}

section Ends

variable {start next : List Instruction × Machine V S}

theorem Ends.after (h : a.Ends l code loop left o st next)
    (hr : Reaches a.meaning code start next) : a.Ends l code loop left o st start := by
  obtain ⟨there, stack, slots, hreach, hh, hexits⟩ := h
  exact ⟨there, stack, slots, hr.trans hreach, hh, hexits⟩

theorem Ends.here (hh : a.Holds l st.cells slots) :
    a.Ends l code loop left .normal st (left, ⟨[], slots, st.state⟩) :=
  ⟨left, [], slots, .refl, hh, .normal⟩

theorem Ends.reaches (h : a.Ends l code loop left .normal st start) :
    ∃ slots, Reaches a.meaning code start (left, ⟨[], slots, st.state⟩) ∧
      a.Holds l st.cells slots := by
  obtain ⟨there, stack, slots, hreach, hh, hexits⟩ := h
  cases hexits
  exact ⟨slots, hreach, hh⟩

theorem Ends.elsewhere (h : a.Ends l code loop left o st start) (ho : o ≠ .normal)
    (left' : List Instruction) : a.Ends l code loop left' o st start := by
  obtain ⟨there, stack, slots, hreach, hh, hexits⟩ := h
  refine ⟨there, stack, slots, hreach, hh, ?_⟩
  cases hexits
  case normal => exact absurd rfl ho
  case broken hl ht => exact .broken hl ht
  case continued hl ht => exact .continued hl ht
  case returned hr => exact .returned hr

theorem Ends.join (h : a.Ends l code loop tail o st start)
    (hr : ∀ m, Reaches a.meaning code (tail, m) (left, m)) :
    a.Ends l code loop left o st start := by
  by_cases ho : o = .normal
  case pos =>
    subst ho
    obtain ⟨slots, hreach, hh⟩ := h.reaches
    exact (Ends.here hh).after (hreach.trans (hr _))
  case neg => exact h.elsewhere ho left

end Ends

theorem Decides.reaches {condition : Option Expr} {stop : Nat}
    (hd : a.Decides kind l names condition) (hh : a.Holds l st.cells slots)
    (ht : a.test names condition st = some (b, st₁))
    (hstop : codeFrom? (some stop) code = some there) (left : List Instruction) :
    Reaches a.meaning code
        ((a.site kind).header (l.slots names) stop loc condition ++ left, ⟨[], slots, st.state⟩)
        (if b then left else there, ⟨[], slots, st₁.state⟩) ∧ st₁.cells = st.cells := by
  cases condition
  case none =>
    cases ht
    exact ⟨.refl, rfl⟩
  case some condition =>
    simp only [test, Option.bind_eq_bind, Option.bind_eq_some_iff] at ht
    obtain ⟨⟨v, s⟩, hv, ht⟩ := ht
    cases ht
    have hneeded := hd.condition condition rfl
    have hvalue := hd.finds.perform_needed hh hneeded.toSure hneeded.value hv []
    refine ⟨?_, rfl⟩
    rw [Site.header, List.append_assoc]
    refine (Reaches.of_perform (Site.value_straight _ _ condition) _ hvalue).trans ?_
    exact Reaches.jumpIfFalse hstop loc left ⟨[], slots, s⟩ v

namespace Simulated

variable {s : Stmt} {body rest : List Stmt} {loc : Location}

theorem declare (hs : s.declaration? = some d) (hd : d.init = none) :
    a.Simulated kind l code names (.stmt s) st .normal st := by
  intro loop part left slots hrun hlays hstands hh
  cases hlays
  obtain ⟨type, hcode⟩ := (a.site kind).stmtAt_declaration l names loop _ hs
  rw [hcode, hd]
  exact .here hh

theorem initial (hs : s.declaration? = some d) (hd : d.init = some e)
    (he : a.eval names st.cells e st.state = some (v, s')) :
    a.Simulated kind l code names (.stmt s) st .normal
      (Store.set { st with state := s' } names.next v) := by
  intro loop part left slots hrun hlays hstands hh
  cases hlays
  obtain ⟨type, hcode⟩ := (a.site kind).stmtAt_declaration l names loop _ hs
  have hstarts := Stmt.Runnable.starts hrun hs
  have hneeded := hstarts.init e hd
  have hvalue := hstarts.finds.perform_needed hh hneeded.toSure hneeded.value he []
  rw [hcode, hd, Site.initialAt]
  refine Ends.after (.here (hh.set hstarts.finds.start hstarts.cell v))
    (Reaches.of_perform ?_ left ?_)
  · exact (Site.value_straight _ _ e).append (.single rfl)
  · rw [perform_append, hvalue, Option.bind_some, perform_cons, act_store]
    rfl

theorem assign {target : Expr} (h : a.assign names target op value st = some st') :
    a.Simulated kind l code names (.stmt (.assign loc target op value)) st .normal st' := by
  intro loop part left slots hrun hlays hstands hh
  cases hlays
  obtain ⟨hfinds, htarget, hvalue⟩ := hrun
  obtain ⟨slots', hperform, hh'⟩ :=
    hfinds.perform_assign hh htarget hvalue.toSure hvalue.value loc h []
  rw [Site.stmtAt]
  exact (Ends.here hh').after
    (.of_perform (Site.assign_straight _ _ target op value loc) left hperform)

theorem evaluate (he : a.eval names st.cells e st.state = some (v, s')) :
    a.Simulated kind l code names (.stmt (.evaluate loc e)) st .normal { st with state := s' } := by
  intro loop part left slots hrun hlays hstands hh
  cases hlays
  obtain ⟨hfinds, hsure⟩ := hrun
  have hvalue := perform_value hfinds hh e hsure.formed hsure.typed hsure.operands he []
  rw [Site.stmtAt]
  refine Ends.after (.here hh) (.of_perform (Site.evaluate_straight _ _ e loc) left ?_)
  rw [Site.evaluate, site_program]
  split
  case isTrue hvoid => rw [hvalue, if_pos hvoid]
  case isFalse hvoid =>
    rw [perform_append, hvalue, if_neg hvoid]
    rfl

theorem result :
    a.Simulated kind l code names (.stmt (.result loc none)) st (.returned none) st := by
  intro loop part left slots hrun hlays hstands hh
  cases hlays
  rw [Site.stmtAt]
  exact ⟨_, [], slots, .refl, hh, .returned ⟨rfl, _, rfl, rfl, rfl⟩⟩

theorem resultOf (he : a.eval names st.cells e st.state = some (v, s')) :
    a.Simulated kind l code names (.stmt (.result loc (some e))) st (.returned (some v))
      { st with state := s' } := by
  intro loop part left slots hrun hlays hstands hh
  cases hlays
  have hneeded := hrun.condition e rfl
  have hvalue := hrun.finds.perform_needed hh hneeded.toSure hneeded.value he []
  have htype : (if (a.site kind).returns = .void then a.program.typeOf e
      else (a.site kind).returns) ≠ .void := by
    split
    case isTrue => exact hneeded.value
    case isFalse hreturns => exact hreturns
  rw [Site.stmtAt, Site.result, List.append_assoc]
  refine ⟨_, [v], slots, .of_perform (Site.value_straight _ _ e) _ hvalue, hh, .returned ?_⟩
  exact ⟨rfl, _, rfl, rfl, if_neg htype⟩

theorem breakLoop : a.Simulated kind l code names (.stmt (.breakLoop loc)) st .broken st := by
  intro loop part left slots hrun hlays hstands hh
  cases hlays
  obtain ⟨lp, rfl⟩ := Option.isSome_iff_exists.mp hrun
  obtain ⟨there, hthere⟩ := Option.isSome_iff_exists.mp (hstands.opened lp rfl).2
  rw [Site.stmtAt]
  exact ⟨there, [], slots, .jump hthere loc left _, hh, .broken rfl hthere⟩

theorem continueLoop :
    a.Simulated kind l code names (.stmt (.continueLoop loc)) st .continued st := by
  intro loop part left slots hrun hlays hstands hh
  cases hlays
  obtain ⟨lp, rfl⟩ := Option.isSome_iff_exists.mp hrun
  obtain ⟨there, hthere⟩ := Option.isSome_iff_exists.mp (hstands.opened lp rfl).1
  rw [Site.stmtAt]
  exact ⟨there, [], slots, .jump hthere loc left _, hh, .continued rfl hthere⟩

theorem block (h : a.Simulated kind l code names.enter (.body body) st o st') :
    a.Simulated kind l code names (.stmt (.block loc body)) st o st' := by
  intro loop part left slots hrun hlays hstands hh
  cases hlays
  exact h hrun (by rw [Site.stmtAt]; exact .body ..) hstands hh

theorem nil : a.Simulated kind l code names (.body []) st .normal st := by
  intro loop part left slots hrun hlays hstands hh
  cases hlays
  exact .here hh

theorem cons (hs : a.Simulated kind l code names (.stmt s) st .normal st₁)
    (h : a.Simulated kind l code (names.after s) (.body rest) st₁ o st') :
    a.Simulated kind l code names (.body (s :: rest)) st o st' := by
  intro loop part left slots hrun hlays hstands hh
  cases hlays
  rw [Site.bodyAt] at hstands ⊢
  rw [List.append_assoc]
  obtain ⟨slots₁, hreach, hh₁⟩ := (hs hrun.1 (.stmt ..) hstands.first hh).reaches
  exact (h hrun.2 (.body ..) hstands.last hh₁).after hreach

theorem leave (hs : a.Simulated kind l code names (.stmt s) st o st') (ho : o ≠ .normal) :
    a.Simulated kind l code names (.body (s :: rest)) st o st' := by
  intro loop part left slots hrun hlays hstands hh
  cases hlays
  rw [Site.bodyAt] at hstands ⊢
  rw [List.append_assoc]
  exact (hs hrun.1 (.stmt ..) hstands.first hh).elsewhere ho left

section Branch

variable {condition : Expr} {thenBody : List Stmt} {elseBody : Option (List Stmt)}

structure Other (a : Activation V S) (kind : Routine.Kind) (l : Layout) (code : List Instruction)
    (names : Names) (loop : Option Loop) (orElse : Nat) (elseBody : Option (List Stmt))
    (whole left there part tail : List Instruction) : Prop where
  skipped : ∀ m, Reaches a.meaning code (whole ++ left, m) (left, m)
  label   : codeFrom? (some orElse) code = some there
  start   : ∀ m, Reaches a.meaning code (there, m) (part ++ tail, m)
  lays    : (a.site kind).Lays l names.enter loop (.body (elseBody.getD [])) part
  stands  : Stands code loop part tail
  done    : ∀ m, Reaches a.meaning code (tail, m) (left, m)

theorem exists_other
    (h : Stands code loop ((a.site kind).elseAt l names loop orElse next loc elseBody) left) :
    ∃ there part tail, Other a kind l code names loop orElse elseBody
      ((a.site kind).elseAt l names loop orElse next loc elseBody) left there part tail := by
  cases elseBody
  case none =>
    rw [Site.elseAt] at h ⊢
    exact ⟨_, [], left, {
      skipped := fun m => .place ..
      label := h.codeFrom?
      start := fun m => .place ..
      lays := .body 0 []
      stands := h.tail
      done := fun m => .refl }⟩
  case some body =>
    rw [Site.elseAt, List.cons_append, List.cons_append] at h ⊢
    have hplace := h.tail
    have hbody := hplace.tail
    have hend := hbody.last
    refine ⟨_, (a.site kind).bodyAt l names.enter loop (next + 1) body, .place next loc :: left, {
      skipped := fun m => (Reaches.jump hend.codeFrom? ..).trans (Reaches.place ..)
      label := hplace.codeFrom?
      start := fun m => ?_
      lays := .body ..
      stands := hbody.first
      done := fun m => .place .. }⟩
    rw [List.append_assoc]
    exact .place ..

theorem branch (hc : a.test names (some condition) st = some (true, st₁))
    (h : a.Simulated kind l code names.enter (.body thenBody) st₁ o st') :
    a.Simulated kind l code names (.stmt (.branch loc condition thenBody elseBody)) st o st' := by
  intro loop part left slots hrun hlays hstands hh
  cases hlays
  obtain ⟨hdecides, hthen, helse⟩ := hrun
  rw [Site.stmtAt_branch] at hstands ⊢
  obtain ⟨there, part, tail, hother⟩ := exists_other hstands.last.last
  obtain ⟨hreach, hcells⟩ := hdecides.reaches hh hc hother.label _
  rw [List.append_assoc, List.append_assoc]
  have hends := h hthen (.body ..) hstands.last.first (hcells ▸ hh)
  exact (hends.join hother.skipped).after hreach

theorem otherwise (hc : a.test names (some condition) st = some (false, st₁))
    (h : a.Simulated kind l code (names.skip (declarationsIn thenBody).length).enter
      (.body (elseBody.getD [])) st₁ o st') :
    a.Simulated kind l code names (.stmt (.branch loc condition thenBody elseBody)) st o st' := by
  intro loop part left slots hrun hlays hstands hh
  cases hlays
  obtain ⟨hdecides, hthen, helse⟩ := hrun
  rw [Site.stmtAt_branch] at hstands ⊢
  obtain ⟨there, part, tail, hother⟩ := exists_other hstands.last.last
  obtain ⟨hreach, hcells⟩ := hdecides.reaches hh hc hother.label _
  rw [List.append_assoc]
  have hends := h helse.getD hother.lays hother.stands (hcells ▸ hh)
  exact ((hends.join hother.done).after (hother.start _)).after hreach

end Branch

theorem whileLoop (h : a.Simulated kind l code names (.loop (some condition) none body) st o st') :
    a.Simulated kind l code names (.stmt (.whileLoop loc condition body)) st o st' := by
  intro loop part left slots hrun hlays hstands hh
  cases hlays
  obtain ⟨hdecides, hbody⟩ := hrun
  exact h ⟨hdecides, trivial, hbody⟩ ((a.site kind).lays_whileLoop l names loop _ loc _ _)
    hstands hh

theorem forLoop {init : Option Stmt}
    (hi : a.Simulated kind l code names.enter (.body init.toList) st .normal st₁)
    (h : a.Simulated kind l code (names.enter.afterStep init) (.loop condition update body) st₁ o
      st') :
    a.Simulated kind l code names (.stmt (.forLoop loc init condition update body)) st o st' := by
  intro loop part left slots hrun hlays hstands hh
  cases hlays
  obtain ⟨hinit, hdecides, hupdate, hbody⟩ := hrun
  obtain ⟨part, hpart, hlays⟩ := (a.site kind).stmtAt_forLoop l names loop _ loc init condition
    update body
  rw [hpart] at hstands ⊢
  rw [List.append_assoc]
  obtain ⟨slots₁, hreach, hh₁⟩ := (hi hinit.toList (.body ..) hstands.first hh).reaches
  exact (h ⟨hdecides, hupdate.toList, hbody⟩ hlays hstands.last hh₁).after hreach

section Loop

variable {condition : Option Expr} {update : Option Stmt}

-- The code of a loop and what is behind it: first the head with the label `start`, then the body,
-- and at last what leads from one round to the next.
structure Circles (a : Activation V S) (kind : Routine.Kind) (l : Layout) (code : List Instruction)
    (names : Names) (loop : Option Loop) (condition : Option Expr) (update : Option Stmt)
    (body : List Stmt) (whole left : List Instruction) (start : Nat) (loc : Location) (lp : Loop)
    (part tail turn next : List Instruction) : Prop where
  shape  : whole =
    .place start loc :: ((a.site kind).header (l.slots names) lp.stop loc condition ++
      (part ++ tail))
  lays   : (a.site kind).Lays l names.enter (some lp) (.body body) part
  stands : Stands code (some lp) part tail
  stop   : codeFrom? (some lp.stop) code = some (.place lp.stop loc :: left)
  rounds : (a.site kind).Lays l names loop (.body update.toList) turn
  turns  : Stands code loop turn next
  ended  : ∀ m, Reaches a.meaning code (tail, m) (turn ++ next, m)
  label  : ∃ there, codeFrom? (some lp.next) code = some there ∧
    ∀ m, Reaches a.meaning code (there, m) (turn ++ next, m)
  again  : ∀ m, Reaches a.meaning code (next, m) (whole, m)

theorem exists_circles (hlays : (a.site kind).Lays l names loop (.loop condition update body) part)
    (h : Stands code loop part left) :
    ∃ start loc lp inner tail turn next, Circles a kind l code names loop condition update body
      (part ++ left) left start loc lp inner tail turn next := by
  cases hlays
  case whileLoop start stop next loc =>
    -- The next round begins where the loop does.
    rw [Site.loopAt] at h ⊢
    have hbody := h.tail.last
    have hjump := hbody.last.last
    exact ⟨start, loc, ⟨start, stop⟩, _, _, [], _, {
      shape := by simp only [List.cons_append, List.append_assoc]
      lays := .body ..
      stands := hbody.first.inside h.codeFrom? hjump.tail.codeFrom?
      stop := hjump.tail.codeFrom?
      rounds := .body 0 []
      turns := ⟨h.nodup, h.suffix, h.opened⟩
      ended := fun m => Reaches.jump h.codeFrom? loc _ m
      label := ⟨_, h.codeFrom?, fun m => .refl⟩
      again := fun m => .refl }⟩
  case forLoop start lp next rounds loc =>
    rw [Site.loopAt, List.cons_append] at h ⊢
    have hbody := h.tail.last
    have hturn := hbody.last.tail
    have hjump := hturn.last
    exact ⟨start, loc, lp, _, _, _, _, {
      shape := by simp only [List.cons_append, List.append_assoc]
      lays := .body ..
      stands := hbody.first.inside hbody.last.codeFrom? hjump.tail.codeFrom?
      stop := hjump.tail.codeFrom?
      rounds := .body ..
      turns := hturn.first
      ended := fun m => List.append_assoc .. ▸ Reaches.place ..
      label := ⟨_, hbody.last.codeFrom?, fun m => List.append_assoc .. ▸ Reaches.place ..⟩
      again := fun m => Reaches.jump h.codeFrom? loc _ m }⟩

theorem stop (hc : a.test names condition st = some (false, st')) :
    a.Simulated kind l code names (.loop condition update body) st .normal st' := by
  intro loop part left slots hrun hlays hstands hh
  obtain ⟨start, loc, lp, inner, tail, turn, next, hcircles⟩ := exists_circles hlays hstands
  obtain ⟨hreach, hcells⟩ := hrun.1.reaches hh hc hcircles.stop _
  rw [hcircles.shape]
  exact ((Ends.here (hcells ▸ hh)).after (Reaches.place ..)).after (hreach.head rfl)

theorem round {inner : List Instruction} {lp : Loop}
    (hcircles : Circles a kind l code names loop condition update body whole left start loc lp inner
      tail turn next)
    (hrun : Phrase.Runnable a kind l names loop.isSome (.loop condition update body))
    (hh : a.Holds l st.cells slots) (hc : a.test names condition st = some (true, st₁))
    (hb : a.Simulated kind l code names.enter (.body body) st₁ o st') :
    a.Ends l code (some lp) tail o st' (whole, ⟨[], slots, st.state⟩) := by
  obtain ⟨hreach, hcells⟩ := hrun.1.reaches hh hc hcircles.stop (inner ++ tail)
  have hbody : Phrase.Runnable a kind l names.enter (some lp).isSome (.body body) := hrun.2.2
  rw [hcircles.shape]
  exact (hb hbody hcircles.lays hcircles.stands (hcells ▸ hh)).after (hreach.head rfl)

section

variable (hc : a.test names condition st = some (true, st₁))

include hc

theorem exit
    (hb : a.Simulated kind l code names.enter (.body body) st₁ .broken st') :
    a.Simulated kind l code names (.loop condition update body) st .normal st' := by
  intro loop part left slots hrun hlays hstands hh
  obtain ⟨start, loc, lp, inner, tail, turn, next, hcircles⟩ := exists_circles hlays hstands
  obtain ⟨there, stack, slots', hreach, hh', hexits⟩ := round hcircles hrun hh hc hb
  cases hexits
  case broken hl ht =>
    cases hl
    cases hcircles.stop.symm.trans ht
    exact ((Ends.here hh').after (Reaches.place ..)).after hreach

theorem finish {result : Option V}
    (hb : a.Simulated kind l code names.enter (.body body) st₁ (.returned result) st') :
    a.Simulated kind l code names (.loop condition update body) st (.returned result) st' := by
  intro loop part left slots hrun hlays hstands hh
  obtain ⟨start, loc, lp, inner, tail, turn, next, hcircles⟩ := exists_circles hlays hstands
  obtain ⟨there, stack, slots', hreach, hh', hexits⟩ := round hcircles hrun hh hc hb
  cases hexits
  case returned hr => exact ⟨there, stack, slots', hreach, hh', .returned hr⟩

theorem again
    (hb : a.Simulated kind l code names.enter (.body body) st₁ o st₂)
    (ho : o = .normal ∨ o = .continued)
    (hu : a.Simulated kind l code names (.body update.toList) st₂ .normal st₃)
    (h : a.Simulated kind l code names (.loop condition update body) st₃ o' st') :
    a.Simulated kind l code names (.loop condition update body) st o' st' := by
  intro loop part left slots hrun hlays hstands hh
  obtain ⟨start, loc, lp, inner, tail, turn, next, hcircles⟩ := exists_circles hlays hstands
  -- Control gets behind the body, either way.
  have hround : ∃ slots₂, Reaches a.meaning code (part ++ left, ⟨[], slots, st.state⟩)
      (turn ++ next, ⟨[], slots₂, st₂.state⟩) ∧ a.Holds l st₂.cells slots₂ := by
    obtain ⟨there, stack, slots₂, hreach, hh₂, hexits⟩ := round hcircles hrun hh hc hb
    rcases ho with rfl | rfl
    · cases hexits
      exact ⟨slots₂, hreach.trans (hcircles.ended _), hh₂⟩
    · cases hexits
      case continued hl ht =>
        obtain ⟨there, hlabel, hlead⟩ := hcircles.label
        cases hl
        cases hlabel.symm.trans ht
        exact ⟨slots₂, hreach.trans (hlead _), hh₂⟩
  obtain ⟨slots₂, hreach₂, hh₂⟩ := hround
  obtain ⟨slots₃, hreach₃, hh₃⟩ := (hu hrun.2.1 hcircles.rounds hcircles.turns hh₂).reaches
  have hends := h hrun hlays hstands hh₃
  exact ((hends.after (hcircles.again _)).after hreach₃).after hreach₂

end

end Loop

end Simulated

-- Whatever a phrase does, its code does.
theorem Runs.simulated (h : a.Runs names p st o st') :
    a.Simulated kind l code names p st o st' := by
  induction h
  case declare hs hd => exact Simulated.declare hs hd
  case initial hs hd he => exact Simulated.initial hs hd he
  case assign h => exact Simulated.assign h
  case evaluate he => exact Simulated.evaluate he
  case result => exact Simulated.result
  case resultOf he => exact Simulated.resultOf he
  case breakLoop => exact Simulated.breakLoop
  case continueLoop => exact Simulated.continueLoop
  case block ih => exact Simulated.block ih
  case branch hc _ ih => exact Simulated.branch hc ih
  case otherwise hc _ ih => exact Simulated.otherwise hc ih
  case whileLoop ih => exact Simulated.whileLoop ih
  case forLoop _ _ hi ih => exact Simulated.forLoop hi ih
  case nil => exact Simulated.nil
  case cons _ _ hs ih => exact Simulated.cons hs ih
  case leave ho hs => exact Simulated.leave hs ho
  case stop hc => exact Simulated.stop hc
  case exit hc _ hb => exact Simulated.exit hc hb
  case finish hc _ hb => exact Simulated.finish hc hb
  case again hc _ ho _ _ hb hu ih => exact Simulated.again hc hb ho hu ih

end Activation
end Lumen
