import Lumen.Proofs.Checked.Kept
import Lumen.Proofs.Checked.Tasks

namespace Lumen

open Typing Analysis SymbolTable
open List hiding after head
open Option

variable {items items' : Items} {q : String} {own : List Stmt} {owner : Nat} {p : Problem}

structure Header where
  loc      : Location
  name     : String
  params   : List Param
  returns  : TypeName
  isStatic : Bool

def Header.routine (h : Header) (body : List Stmt) : Stmt :=
  .routine h.loc h.name h.params h.returns h.isStatic body

inductive Gap where
  | toplevel (before after : Items)
  | method   (before : Items) (loc : Location) (name : String) (fields : List (Field Expr))
             (earlier later : List Stmt) (after : Items)

namespace Gap

def className : Gap → Option String
  | toplevel .. => none
  | method _ _ name .. => some name

def fill (item : Stmt) : Gap → Items
  | toplevel before after => before ++ item :: after
  | method before loc name fields earlier later after =>
    before ++ .classDef loc name fields (earlier ++ item :: later) :: after

def ofLast? (items : Items) : Option (Gap × Header × List Stmt) :=
  match items.getLast? with
  | some (.routine loc name params returns isStatic body) =>
    some (.toplevel items.dropLast [], ⟨loc, name, params, returns, isStatic⟩, body)
  | _ => none

theorem fill_of_ofLast? (h : ofLast? items = some (gap, head, body)) :
    items = gap.fill (head.routine body) := by
  simp only [ofLast?] at h
  split at h
  case h_1 loc name params returns isStatic body hlast =>
    cases h
    exact (dropLast_append_getLast? _ hlast).symm
  case h_2 => cases h

def front : Gap → List Task
  | toplevel before after =>
    before.flatMap Stmt.classTasks ++ after.flatMap Stmt.classTasks ++
      before.flatMap Stmt.routineTasks
  | method before _ name fields earlier _ _ =>
    before.flatMap Stmt.classTasks ++ fields.map (.field name) ++
      earlier.map (.routine (some name))

def back : Gap → List Task
  | toplevel _ after => after.flatMap Stmt.routineTasks
  | method before _ name _ _ later after =>
    later.map (.routine (some name)) ++ after.flatMap Stmt.classTasks ++
      (before.flatMap Stmt.routineTasks ++ after.flatMap Stmt.routineTasks)

def behind (gap : Gap) (q : String) : List Stmt :=
  ((gap.back.filterMap Task.routine?).filter (·.1 = q)).map (·.2)

def placesBefore : Gap → List Location
  | toplevel before _ => before.flatMap Stmt.declaredPlaces
  | method before _ _ fields earlier _ _ =>
    before.flatMap Stmt.declaredPlaces ++ (fields.map (·.loc) ++ earlier.flatMap Stmt.routineHead)

def placesBehind : Gap → List Location
  | toplevel _ after => after.flatMap Stmt.declaredPlaces
  | method _ _ _ _ _ later after =>
    later.flatMap Stmt.routineHead ++ after.flatMap Stmt.declaredPlaces

variable {gap : Gap} {head : Header}

theorem tasks_fill (gap : Gap) (head : Header) (body : List Stmt) :
    tasks (gap.fill (head.routine body)) =
      gap.front ++ .routine gap.className (head.routine body) :: gap.back := by
  cases gap <;> simp [tasks, fill, front, back, className, Stmt.classTasks, Stmt.routineTasks,
    Header.routine, Stmt.routineName?]

theorem declaredPlaces_fill (gap : Gap) (head : Header) (body : List Stmt) :
    (gap.fill (head.routine body)).flatMap Stmt.declaredPlaces =
      gap.placesBefore ++ head.loc :: (head.params.map (·.loc) ++ gap.placesBehind) := by
  cases gap <;> simp [fill, placesBefore, placesBehind, Stmt.declaredPlaces, Stmt.routineHead,
    Header.routine]

structure Alike (x y : Stmt) : Prop where
  classStep   : ∀ found, classStep found x = classStep found y
  declareItem : ∀ (a : Analysis) scope, a.declareItem x scope = a.declareItem y scope
  checkItem   : ∀ place a, Typing.checkItem place a x = Typing.checkItem place a y

theorem Alike.refl (x : Stmt) : Alike x x :=
  ⟨fun _ => rfl, fun _ _ => rfl, fun _ _ => rfl⟩

theorem alike_fill (gap : Gap) (head : Header) (body body' : List Stmt) :
    List.Forall₂ Alike (gap.fill (head.routine body)) (gap.fill (head.routine body')) := by
  have hsame (items : Items) : List.Forall₂ Alike items items :=
    forall₂_same.mpr fun x _ => .refl x
  cases gap
  case toplevel before after =>
    exact rel_append (hsame before) (.cons ⟨fun _ => rfl, fun _ _ => rfl, fun _ _ => rfl⟩
      (hsame after))
  case method before loc name fields earlier later after =>
    refine rel_append (hsame before) (.cons ⟨fun _ => rfl, fun a scope => ?_, fun _ _ => rfl⟩
      (hsame after))
    cases scope
    case none => rfl
    case some scope =>
      simp only [declareItem, foldl_append, foldl_cons]
      rfl

theorem classSteps_of_alike (h : List.Forall₂ Alike items items')
    (found : Analysis × List (Option Nat)) :
    items.foldl classStep found = items'.foldl classStep found := by
  induction h generalizing found
  case nil => rfl
  case cons x y xs ys hxy _ ih => rw [foldl_cons, foldl_cons, hxy.classStep, ih]

theorem declareEach_of_alike (h : List.Forall₂ Alike items items') (scopes : List (Option Nat))
    (a : Analysis) : (items.zip scopes).foldl (fun a x => a.declareItem x.1 x.2) a =
      (items'.zip scopes).foldl (fun a x => a.declareItem x.1 x.2) a := by
  induction h generalizing scopes a
  case nil => rfl
  case cons x y xs ys hxy _ ih =>
    cases scopes
    case nil => rfl
    case cons scope scopes =>
      rw [zip_cons_cons, zip_cons_cons, foldl_cons, foldl_cons,
        hxy.declareItem, ih]

theorem declareItems_fill (gap : Gap) (head : Header) (body body' : List Stmt) :
    declareItems (gap.fill (head.routine body)) = declareItems (gap.fill (head.routine body')) := by
  have h := alike_fill gap head body body'
  simp only [declareItems, declareClasses_eq, classSteps_of_alike h]
  exact declareEach_of_alike h _ _

theorem checkMain_fill (gap : Gap) (head : Header) (body body' : List Stmt) (a : Analysis) :
    checkMain (gap.fill (head.routine body)) a = checkMain (gap.fill (head.routine body')) a := by
  have hfold {place : Place} {items items' : Items} (h : List.Forall₂ Alike items items')
      (a : Analysis) : items.foldl (checkItem place) a = items'.foldl (checkItem place) a := by
    induction h generalizing a
    case nil => rfl
    case cons x y xs ys hxy _ ih => rw [foldl_cons, foldl_cons, hxy.checkItem, ih]
  exact hfold (alike_fill gap head body body') _

def reached (gap : Gap) (head : Header) : Analysis :=
  gap.front.foldl Task.run (checkMain (gap.fill (head.routine []))
    (declareItems (gap.fill (head.routine []))))

theorem checkItems_fill (gap : Gap) (head : Header) (body : List Stmt) :
    checkItems (gap.fill (head.routine body)) = gap.back.foldl Task.run
      (Task.run (gap.reached head) (.routine gap.className (head.routine body))) := by
  rw [checkItems_eq_tasks, tasks_fill, foldl_append, foldl_cons, reached,
    declareItems_fill gap head body [], checkMain_fill gap head body []]

end Gap

namespace Typing

theorem idle_declareItem {a : Analysis} {item : Stmt} (h : a.Idle)
    (hs : item.Housed a.table scope) :
    (a.declareItem item scope).Idle := by
  have hcollect := (Spares.collect h.headed item).idle h
  cases item
  case classDef loc name fields methods =>
    cases scope
    case none => exact h
    case some i =>
      have hscope : a.table.classScope? name = some i := hs i rfl
      rwa [collect, hscope] at hcollect
  all_goals exact hcollect

theorem idle_classSteps {found : Analysis × List (Option Nat)} (h : found.1.Idle) (items : Items) :
    (items.foldl classStep found).1.Idle := by
  induction items generalizing found
  case nil => exact h
  case cons item items ih =>
    refine ih ?_
    have hcollect := (Spares.collectClass h.headed item).idle h
    cases item <;> exact hcollect

theorem idle_declareItems (items : Items) : (declareItems items).Idle :=
  (declareItems_induct (idle_classSteps idle_builtIns items)
    fun _ _ _ _ hs h => idle_declareItem h hs).2

theorem Task.foldl_idle {a : Analysis} (h : a.Idle) (list : List Task) :
    (list.foldl Task.run a).Idle := by
  induction list generalizing a
  case nil => exact h
  case cons task list ih =>
    obtain ⟨ids, _, hadv⟩ := Task.run_advances a task
    exact ih ⟨hadv.headed h.headed, hadv.none h.blocks⟩

theorem Task.foldl_names (a : Analysis) (list : List Task) :
    (list.foldl Task.run a).table.classes = a.table.classes ∧
      (list.foldl Task.run a).table.routines = a.table.routines := by
  induction list generalizing a
  case nil => exact ⟨rfl, rfl⟩
  case cons task list ih =>
    obtain ⟨ids, _, hadv⟩ := Task.run_advances a task
    exact ⟨(ih _).1.trans hadv.classes, (ih _).2.trans hadv.routines⟩

-- No routine that can be written has the name of the statements at top level.
theorem fullName_ne_toplevelName (hn : Token.IsName name) (hc : ∀ c ∈ className, Token.IsName c) :
    fullName className name ≠ toplevelName := by
  intro heq
  have hlt : '<' ∈ (fullName className name).toList := by rw [heq]; decide
  cases className
  case none => exact hn.lt_notMem hlt
  case some className =>
    rw [toList_fullName, mem_append, mem_cons] at hlt
    rcases hlt with hlt | hlt | hlt
    · exact (hc className rfl).lt_notMem hlt
    · simp at hlt
    · exact hn.lt_notMem hlt

theorem Agree.reportIf (h : Agree q own a b) (wrong : Bool) (cause : Cause)
    (ho : own.any (·.tells cause.kind loc)) : Agree q own a (b.reportIf wrong cause loc) := by
  cases wrong
  case false => exact h
  case true =>
    have hmade : (b.report cause loc).problems = [⟨cause, loc⟩] ++ b.problems := rfl
    cases hc : cause.isOutside
    case false => exact h.right (.report b cause loc hc) hmade (by simpa using ho)
    case true =>
      cases cause <;> cases hc
      exact h.right (.exit b false _ loc) hmade (by simpa using ho)

theorem Agree.foldl_together (h : Agree q own a b) (list : List Task)
    (hne : ∀ task ∈ list, ∀ x, task.routine? = some x → x.1 ≠ q) :
    ∃ ps, (list.foldl Task.run a).problems = ps ++ a.problems ∧
      (list.foldl Task.run b).problems = ps ++ b.problems := by
  induction list generalizing a b
  case nil => exact ⟨[], rfl, rfl⟩
  case cons task list ih =>
    rw [forall_mem_cons] at hne
    obtain ⟨ps, hps, hps'⟩ := (h.run_together hne.1).problems
    have hnext : Agree q own (task.run a) (task.run b) :=
      h.run (W := Token.IsName) fun x hx hq => absurd hq (hne.1 x hx)
    obtain ⟨qs, hqs, hqs'⟩ := ih hnext hne.2
    refine ⟨qs ++ ps, ?_, ?_⟩
    · rw [foldl_cons, hqs, hps, append_assoc]
    · rw [foldl_cons, hqs', hps', append_assoc]

end Typing

namespace Gap

variable {gap : Gap} {head : Header} {body : List Stmt}
  (hf : ∀ item ∈ gap.fill (head.routine body), item.FormedItem Token.IsName)

include hf

theorem head_formed : (head.routine body).FormedRoutine Token.IsName ∧
    ∀ c ∈ gap.className, Token.IsName c := by
  cases gap
  case toplevel before after =>
    exact ⟨(hf _ (mem_append_right _ mem_cons_self)).2, by simp [className]⟩
  case method before loc name fields earlier later after =>
    obtain ⟨hname, -, hmethods⟩ := hf _ (mem_append_right _ mem_cons_self)
    exact ⟨hmethods _ (mem_append_right _ mem_cons_self), by simpa [className] using hname⟩

theorem tasks_formed : ∀ task ∈ tasks (gap.fill (head.routine body)), ∀ x,
    task.routine? = some x → x.2.FormedRoutine Token.IsName ∧ x.1 ≠ toplevelName := by
  have hroutine {className : Option String} {item : Stmt} (hc : ∀ c ∈ className, Token.IsName c)
      (hi : item.FormedRoutine Token.IsName) (x : String × Stmt)
      (hx : (Task.routine className item).routine? = some x) :
      x.2.FormedRoutine Token.IsName ∧ x.1 ≠ toplevelName := by
    cases item <;> cases hx
    exact ⟨hi, fullName_ne_toplevelName hi.1 hc⟩
  intro task htask x hx
  rcases mem_append.mp htask with htask | htask <;>
    obtain ⟨item, hitem, htask⟩ := mem_flatMap.mp htask
  · cases item <;> simp only [Stmt.classTasks, not_mem_nil] at htask
    case classDef loc name fields methods =>
      obtain ⟨hname, -, hmethods⟩ := hf _ hitem
      rcases mem_append.mp htask with htask | htask <;>
        obtain ⟨member, hmember, rfl⟩ := List.mem_map.mp htask
      · cases hx
      · exact hroutine (by simpa using hname) (hmethods member hmember) x hx
  · cases item <;> simp [Stmt.routineTasks, Stmt.routineName?] at htask
    case routine loc name params returns isStatic body =>
      subst htask
      exact hroutine (by simp) (hf _ hitem).2 x hx

theorem back_formed : ∀ task ∈ gap.back, ∀ x,
    task.routine? = some x → x.2.FormedRoutine Token.IsName ∧ x.1 ≠ toplevelName := by
  intro task htask
  refine tasks_formed hf task ?_
  rw [tasks_fill]
  exact mem_append_right _ (mem_cons_of_mem _ htask)

omit hf in
theorem idle_reached : (gap.reached head).Idle :=
  Task.foldl_idle (idle_checkMain _ (idle_declareItems _)) _

-- Two bodies make a difference to the scope that they are checked in, and behind the gap to what is
-- checked in the same scope.
theorem agree_fill (ho : FormedBody Token.IsName other) : Agree (fullName gap.className head.name)
      (head.routine body :: head.routine other :: gap.behind (fullName gap.className head.name))
      (checkItems (gap.fill (head.routine body))) (checkItems (gap.fill (head.routine other))) := by
  obtain ⟨hhead, -⟩ := head_formed hf
  have hother : (head.routine other).FormedRoutine Token.IsName :=
    ⟨hhead.1, hhead.2.1, hhead.2.2.1, ho⟩
  set q := fullName gap.className head.name
  set own := head.routine body :: head.routine other :: gap.behind q
  rw [checkItems_fill, checkItems_fill]
  have hstart : Agree q own (gap.reached head) _ :=
    (Agree.refl (idle_reached)).run_own rfl hhead mem_cons_self
  have hboth := hstart.symm.run_own rfl hother (mem_cons_of_mem _ mem_cons_self)
  refine hboth.foldl fun task htask x hx hq => ⟨(back_formed hf task htask x hx).1, ?_⟩
  refine mem_cons_of_mem _ (mem_cons_of_mem _ (List.mem_map.mpr ⟨x, ?_, rfl⟩))
  exact mem_filter.mpr ⟨mem_filterMap.mpr ⟨task, htask, hx⟩, by simpa using hq⟩

omit hf in
theorem names_reached (gap : Gap) (head : Header) (body : List Stmt) :
    (checkItems (gap.fill (head.routine body))).table.classes = (gap.reached head).table.classes ∧
      (checkItems (gap.fill (head.routine body))).table.routines =
        (gap.reached head).table.routines := by
  obtain ⟨hclasses, hroutines⟩ := Task.foldl_names (gap.reached head)
    (.routine gap.className (head.routine body) :: gap.back)
  rw [checkItems_fill]
  exact ⟨hclasses, hroutines⟩

-- A body that is not checked makes no difference.
omit hf in
theorem checkItems_eq_of_none
    (hq : (gap.reached head).table.routineScope? (fullName gap.className head.name) = none)
    (body other : List Stmt) :
    checkItems (gap.fill (head.routine body)) = checkItems (gap.fill (head.routine other)) := by
  have hskip (body : List Stmt) :
      Task.run (gap.reached head) (.routine gap.className (head.routine body)) =
        gap.reached head := by
    simp only [Task.run, Header.routine, checkRoutine, hq]
    split <;> rfl
  rw [checkItems_fill, checkItems_fill, hskip, hskip]

-- A body that is checked makes a difference, be it only that there is an exit in it.
theorem length_problems (ho : (gap.reached head).table.owner? gap.className = some owner)
    (hq : (gap.reached head).table.routineScope? (fullName gap.className head.name) = some i) :
    (checkItems (gap.fill (head.routine [.breakLoop head.loc]))).problems.length =
      (checkItems (gap.fill (head.routine []))).problems.length + 1 := by
  set a := gap.reached head
  set type := resultType a.table head.returns
  have hidle : a.Idle := idle_reached
  have hempty : Task.run a (.routine gap.className (head.routine [])) =
      a.reportIf (type ≠ .void && !type.isError) (.missingReturn head.name type) head.loc := by
    simp [Task.run, ho, Header.routine, checkRoutine, hq, checkBody, anyHasResult, type]
  have hexit : Task.run a (.routine gap.className (head.routine [.breakLoop head.loc])) =
      (a.reportIf true (.outsideLoop "break") head.loc).reportIf (type ≠ .void && !type.isError)
        (.missingReturn head.name type) head.loc := by
    simp [Task.run, ho, Header.routine, checkRoutine, hq, checkBody, checkStmt, anyHasResult,
      Stmt.hasResult, type]
  rw [checkItems_fill, checkItems_fill, hempty, hexit]
  generalize (type ≠ .void && !type.isError : Bool) = wrong
  have htells (kind : Diagnostic.Kind) :
      [head.routine [.breakLoop head.loc]].any (·.tells kind head.loc) := by
    simp [Header.routine, Stmt.tells, placesIn, Stmt.places]
  have hagree : Agree toplevelName [head.routine [.breakLoop head.loc]] a _ :=
    ((Agree.refl hidle).reportIf true (.outsideLoop "break") (htells _)).reportIf wrong
      (.missingReturn head.name type) (htells _)
  obtain ⟨ps, hps, hps'⟩ := (hagree.symm.reportIf wrong (.missingReturn head.name type)
    (htells _)).foldl_together gap.back fun task htask x hx => (back_formed hf task htask x hx).2
  rw [hps, hps']
  cases wrong <;> simp [reportIf, report] <;> omega

end Gap

namespace Typing

-- If a declaration of a name is rejected at a place, then the report names the one that was kept.
def Told (className : Option String) (name : String) (loc : Location) (a : Analysis) : Prop :=
  ∀ p ∈ a.problems, p.cause.kind = .duplicateDeclaration → p.loc = loc →
    ∃ kept, a.table.declared? className name = some kept ∧ p.cause = .duplicate name kept.loc.line

theorem Analysis.Reports.mem {a : Analysis} {K : Problem → Prop} (h : a.Reports K places a')
    (hp : p ∈ a'.problems) : p ∈ a.problems ∨ (p.loc ∈ places ∧ K p) := by
  obtain ⟨made, hadds, hreport, hk⟩ := h
  rw [hadds, mem_append, mem_reverse] at hp
  rcases hp with hp | hp
  · exact .inr ⟨hreport.inside p hp, hk p hp⟩
  · exact .inl hp

theorem Analysis.table_typeOf {a : Analysis} (type : TypeName) (loc : Location) :
    (a.typeOf type loc).2.table = a.table := by
  rw [typeOf]
  split <;> rfl

theorem Analysis.table_paramTypes {a : Analysis} (done : List Ty) (params : List Param) :
    (a.paramTypes done params).2.table = a.table := by
  induction params generalizing a done
  case nil => rfl
  case cons p params ih =>
    rw [paramTypes, ih]
    exact a.table_typeOf p.type p.loc

theorem duplicate_declareRoutine (a : Analysis) (className : Option String) (owner : Nat)
    {head : Header} (body : List Stmt) (hl : head.loc ∉ head.params.map (·.loc))
    (hp : p ∈ (a.declareRoutine className owner (head.routine body)).problems)
    (hk : p.cause.kind = .duplicateDeclaration) (hloc : p.loc = head.loc) :
    p ∈ a.problems ∨ ∃ first, a.table.inScope? owner head.name = some first ∧
      p.cause = .duplicate head.name first.loc.line := by
  have hreturns := a.typeOf_notes head.returns head.loc
  have hparams := (a.typeOf head.returns head.loc).2.paramTypes_reports [] head.params
  have htable : ((a.typeOf head.returns head.loc).2.paramTypes [] head.params).2.table = a.table :=
    (table_paramTypes _ _).trans (a.table_typeOf head.returns head.loc)
  -- Types that are not known are of another kind.
  have hold (hp : p ∈ ((a.typeOf head.returns head.loc).2.paramTypes [] head.params).2.problems) :
      p ∈ a.problems := by
    rcases hparams.mem hp with hp | ⟨-, hkind⟩
    · rcases hreturns.mem hp with hp | ⟨-, hkind⟩
      · exact hp
      · cases hk.symm.trans hkind
    · cases hk.symm.trans hkind
  simp only [Header.routine, declareRoutine, htable] at hp
  split at hp
  case h_1 first hfirst =>
    rcases mem_cons.mp hp with rfl | hp
    · exact .inr ⟨first, hfirst, rfl⟩
    · exact .inl (hold hp)
  case h_2 =>
    rcases (declareParams_reports _ _ _ _).mem hp with hp | ⟨hplace, -⟩
    · exact .inl (hold hp)
    · exact absurd (hloc ▸ hplace) hl

namespace Told

variable {className : Option String} {name : String} {loc : Location} {a a' : Analysis}

theorem of_mem (h : Told className name loc a) (hl : a.table.Lasts a'.table)
    (hp : ∀ p ∈ a'.problems, p.cause.kind = .duplicateDeclaration → p.loc = loc →
      p ∈ a.problems ∨ ∃ kept, a.table.declared? className name = some kept ∧
        p.cause = .duplicate name kept.loc.line) : Told className name loc a' := by
  intro p hmem hk hloc
  obtain ⟨kept, hkept, hcause⟩ : ∃ kept, a.table.declared? className name = some kept ∧
      p.cause = .duplicate name kept.loc.line :=
    (hp p hmem hk hloc).elim (fun hmem => h p hmem hk hloc) id
  exact ⟨kept, hl.declared? hkept, hcause⟩

theorem step {K : Problem → Prop} (h : Told className name loc a) (ht : a.table.Lasts a'.table)
    (hr : a.Reports K places a') (hl : loc ∉ places) : Told className name loc a' :=
  h.of_mem ht fun _ hp _ hloc => .inl
    ((hr.mem hp).resolve_right fun hin => hl (hloc ▸ hin.1))

theorem declareRoutine {head : Header} (body : List Stmt) (h : Told className head.name head.loc a)
    (ho : a.table.owner? className = some owner) (hl : head.loc ∉ head.params.map (·.loc)) :
    Told className head.name head.loc (a.declareRoutine className owner (head.routine body)) := by
  refine h.of_mem (lasts_declareRoutine _ ho) fun p hp hk hloc => ?_
  refine (duplicate_declareRoutine a className owner body hl hp hk hloc).imp_right ?_
  rintro ⟨first, hfirst, hcause⟩
  exact ⟨first, bind_eq_some_iff.mpr ⟨owner, ho, hfirst⟩, hcause⟩

theorem foldl_methods {className : String} {methods : List Stmt}
    (h : Told (some className) name loc a) (ho : a.table.owner? (some className) = some owner)
    (hl : loc ∉ methods.flatMap Stmt.routineHead) : Told (some className) name loc
      (methods.foldl (fun a m => a.declareRoutine (some className) owner m) a) ∧
    (methods.foldl (fun a m => a.declareRoutine (some className) owner m) a).table.owner?
      (some className) = some owner := by
  induction methods generalizing a
  case nil => exact ⟨h, ho⟩
  case cons m methods ih =>
    rw [flatMap_cons, mem_append, not_or] at hl
    have hlasts := lasts_declareRoutine m ho
    exact ih (h.step hlasts (declareRoutine_reports (K := fun _ => True) (fun _ _ => trivial) a
      (some className) owner fun _ _ => trivial) hl.1) (hlasts.owner? ho) hl.2

end Told

end Typing

namespace Gap

variable {gap : Gap} {head : Header} {body : List Stmt}
  (hf : ∀ item ∈ gap.fill (head.routine body), item.FormedItem Token.IsName)
  (hn : (placesIn (gap.fill (head.routine body))).Nodup)

include hf hn

theorem loc_notMem :
    head.loc ∉ (gap.fill (head.routine body)).flatMap Stmt.classPlaces ∧
    head.loc ∉ gap.placesBefore ∧ head.loc ∉ head.params.map (·.loc) ∧
    head.loc ∉ gap.placesBehind ∧
    head.loc ∉ (gap.fill (head.routine body)).flatMap Stmt.innerPlaces := by
  have hnodup := (placesIn_perm_declared hf).nodup_iff.mpr hn
  rw [declaredPlaces_fill] at hnodup
  grind

theorem told_declareItem (a : Analysis) (hi : item ∈ gap.fill (head.routine body))
    (hs : item.Housed a.table scope) (h : Told gap.className head.name head.loc a) :
    Told gap.className head.name head.loc (a.declareItem item scope) := by
  obtain ⟨-, hbefore, hparams, hbehind, -⟩ := loc_notMem hf hn
  have hother (hl : head.loc ∉ item.declaredPlaces) :
      Told gap.className head.name head.loc (a.declareItem item scope) :=
    h.step (declares_declareItem hi hs).lasts (declareItem_reports (K := fun _ => True)
      (fun _ _ => trivial) a scope fun _ _ => trivial) hl
  have hapart {items : Items} (hitem : item ∈ items)
      (hl : head.loc ∉ items.flatMap Stmt.declaredPlaces) : head.loc ∉ item.declaredPlaces :=
    fun hmem => hl (mem_flatMap_of_mem hitem hmem)
  cases gap
  case toplevel before after =>
    rcases mem_append.mp hi with hi | hi
    · exact hother (hapart hi hbefore)
    · rcases mem_cons.mp hi with rfl | hi
      · exact h.declareRoutine body rfl hparams
      · exact hother (hapart hi hbehind)
  case method before loc name fields earlier later after =>
    simp only [placesBefore, placesBehind, mem_append, not_or] at hbefore hbehind
    rcases mem_append.mp hi with hi | hi
    · exact hother (hapart hi hbefore.1)
    · rcases mem_cons.mp hi with rfl | hi
      case inr => exact hother (hapart hi hbehind.2)
      case inl =>
        cases scope
        case none => exact h
        case some scope =>
          have hscope := hs scope rfl
          -- Fields and earlier methods, then the routine, then later methods.
          have hfields := (declares_declareFields hi (List.Subset.refl fields) hscope).lasts
          have hstart := h.step hfields (declareFields_reports (K := fun _ => True)
            (fun _ _ => trivial) a scope fields) hbefore.2.1
          obtain ⟨hearlier, howner⟩ := hstart.foldl_methods (hfields.owner? hscope) hbefore.2.2
          have hown := hearlier.declareRoutine body howner hparams
          simp only [declareItem, foldl_append, foldl_cons]
          exact (hown.foldl_methods ((lasts_declareRoutine _ howner).owner? howner) hbehind.1).1

theorem told_declareItems : Told gap.className head.name head.loc
    (declareItems (gap.fill (head.routine body))) := by
  obtain ⟨hclasses, -⟩ := loc_notMem hf hn
  refine (declareItems_induct (fun p hp _ hloc => ?_)
    fun a item hi scope hs h => told_declareItem hf hn a hi hs h).2
  rcases (classSteps_reports (K := fun _ => True) (fun _ _ => trivial) _ _).mem hp with hp | hin
  · cases hp
  · exact absurd (hloc ▸ hin.1) hclasses

-- The report comes from the collection of declarations.
theorem mem_declareItems (hp : p ∈ (checkItems (gap.fill (head.routine body))).problems)
    (hk : p.cause.kind = .duplicateDeclaration) (hloc : p.loc = head.loc) :
    p ∈ (declareItems (gap.fill (head.routine body))).problems := by
  obtain ⟨-, -, -, -, hinner⟩ := loc_notMem hf hn
  rcases (checkBodies_reports (K := fun p => p.loc ∈ (gap.fill (head.routine body)).flatMap
    Stmt.innerPlaces ∨ p.isDeclared = false) (fun _ => .inr) hf (fun _ => .inl)).mem hp
    with hp | ⟨-, hin | hnot⟩
  · exact hp
  · exact absurd (hloc ▸ hin) hinner
  · simp [Problem.isDeclared, hk] at hnot

end Gap

namespace Typing

theorem declared?_checkItems (items : Items) (className : Option String) (name : String) :
    ((checkItems items).table.declared? className name).map Symbol.untyped =
      ((declareItems items).table.declared? className name).map Symbol.untyped := by
  have h := retyped_checkItems items
  cases className
  case none => exact h.global name
  case some className => exact congrArg (·.map Symbol.untyped) (congrFun₂ h.member? className name)

theorem exists_of_untyped {x y : Option Symbol} (h : x.map Symbol.untyped = y.map Symbol.untyped)
    (hy : y = some s) : ∃ s', x = some s' ∧ s'.kind = s.kind ∧ s'.loc = s.loc := by
  rw [hy] at h
  obtain ⟨s', hs', heq⟩ := map_eq_some_iff.mp h
  exact ⟨s', hs', (congrArg Symbol.kind heq : s'.untyped.kind = s.untyped.kind),
    (congrArg Symbol.loc heq : s'.untyped.loc = s.untyped.loc)⟩

theorem problems_checkItems (items : Items) :
    (declareItems items).problems ⊆ (checkItems items).problems := by
  have hmain := (checkItems_advances (mainPlace (declareItems items))
    (mainStart (declareItems items)) items).problems
  exact List.Subset.trans hmain (checkDefinitions_advances _ items).problems

theorem routineScope?_checkItems (items : Items) (hq : q ≠ toplevelName) :
    (checkItems items).table.routineScope? q = (declareItems items).table.routineScope? q := by
  rw [routineScope?, routines_checkItems]
  simp [mainStart, newScope, routineScope?,
    Std.TreeMap.getElem?_insertIfNew, hq.symm]

end Typing

namespace Gap

variable {gap : Gap} {head : Header} {body : List Stmt} {kept : Symbol}
  (hf : ∀ item ∈ gap.fill (head.routine body), item.FormedItem Token.IsName)

include hf

theorem isDefined_iff (hk : (checkItems (gap.fill (head.routine body))).table.declared?
      gap.className head.name = some kept) : kept.isDefined ↔
    (gap.reached head).table.routineScope? (fullName gap.className head.name) ≠ none := by
  obtain ⟨hhead, hclass⟩ := head_formed hf
  have hcollected := collected_declareItems (gap.fill (head.routine body))
  obtain ⟨first, hfirst, hkind, -⟩ :=
    exists_of_untyped (declared?_checkItems _ gap.className head.name).symm hk
  have hscope : (gap.reached head).table.routineScope? (fullName gap.className head.name) =
      (declareItems (gap.fill (head.routine body))).table.routineScope?
        (fullName gap.className head.name) := by
    rw [← routineScope?_checkItems _ (fullName_ne_toplevelName hhead.1 hclass),
      routineScope?, routineScope?, (names_reached gap head body).2]
  have hdefined : kept.isDefined = first.isDefined := by
    simp only [Symbol.isDefined, Symbol.signature?, hkind]
  rw [hscope, hdefined, ← hcollected.mem_routines_iff hf hhead.1 hclass hfirst,
    routineScope?, ← Std.TreeMap.isSome_getElem?_iff_mem, isSome_iff_ne_none]

end Gap

namespace Checked

theorem mem_diagnostics :
    d ∈ (ofItems items).diagnostics ↔ ∃ p ∈ (checkItems items).problems, p.diagnostic = d := by
  rw [ofItems, (Diagnostic.sorted_perm _).mem_iff]
  simp

-- Two checks that have the same scopes, except for that of the routine `q`, and the same
-- diagnostics, except for those of the definitions `own`.
structure SameBeyond (q : String) (own : List Stmt) (c c' : Checked) : Prop where
  classes     : c'.symbols.classes = c.symbols.classes
  routines    : c'.symbols.routines = c.symbols.routines
  outline     : ∀ i : Nat,
    c'.symbols.scopes[i]?.map Scope.outline = c.symbols.scopes[i]?.map Scope.outline
  scopes      : ∀ i : Nat, c.symbols.routineScope? q ≠ some i →
    c'.symbols.scopes[i]? = c.symbols.scopes[i]?
  diagnostics : (c'.diagnostics.filter fun d => !own.any (·.tells d.kind d.loc)).Perm
    (c.diagnostics.filter fun d => !own.any (·.tells d.kind d.loc))

theorem sameBeyond_of_agree (h : Agree q own (checkItems items) (checkItems items')) :
    SameBeyond q own (ofItems items) (ofItems items') where
  classes := h.classes
  routines := h.routines
  outline := h.outline
  scopes := h.scopes
  diagnostics := by
    have hfilter (items : Items) :
        ((ofItems items).diagnostics.filter fun d => !own.any (·.tells d.kind d.loc)).Perm
          ((((checkItems items).problems.filter fun p =>
            !own.any (·.tells p.cause.kind p.loc)).reverse).map Problem.diagnostic) := by
      refine ((Diagnostic.sorted_perm _).filter _).trans ?_
      rw [List.filter_map, List.filter_reverse]
      exact .refl _
    refine (hfilter items').trans (.trans ?_ (hfilter items).symm)
    rw [h.problems]

theorem length_diagnostics (items : Items) :
    (ofItems items).diagnostics.length = (checkItems items).problems.length := by
  rw [ofItems, (Diagnostic.sorted_perm _).length_eq]
  simp

-- The body makes no difference if it is not checked, and only then.
theorem same_iff {gap : Gap} {head : Header}
    (hf : ∀ item ∈ gap.fill (head.routine body), item.FormedItem Token.IsName)
    (hk : (ofItems (gap.fill (head.routine body))).symbols.declared? gap.className head.name = some
      kept) :
    (∀ other, (ofItems (gap.fill (head.routine other))).diagnostics =
        (ofItems (gap.fill (head.routine body))).diagnostics ∧
      (ofItems (gap.fill (head.routine other))).symbols =
        (ofItems (gap.fill (head.routine body))).symbols) ↔ kept.isDefined = false := by
  have hiff := Gap.isDefined_iff hf hk
  refine ⟨fun hsame => ?_, fun hundefined other => ?_⟩
  · refine Bool.eq_false_iff.mpr fun hdefined => ?_
    obtain ⟨i, hi⟩ := ne_none_iff_exists'.mp (hiff.mp hdefined)
    obtain ⟨owner, ho, -⟩ := bind_eq_some_iff.mp hk
    have howner : (gap.reached head).table.owner? gap.className = some owner := by
      rw [← ho]
      cases gap.className
      case none => rfl
      case some className => exact congrArg (·[className]?) (Gap.names_reached gap head body).1.symm
    have hlength := Gap.length_problems hf howner hi
    rw [← length_diagnostics, ← length_diagnostics, (hsame []).1,
      (hsame [.breakLoop head.loc]).1] at hlength
    omega
  · have hnone : (gap.reached head).table.routineScope? (fullName gap.className head.name) = none :=
      not_not.mp fun hne => Bool.false_ne_true (hundefined.symm.trans (hiff.mpr hne))
    simp only [ofItems, Gap.checkItems_eq_of_none hnone other body, and_self]

-- A routine whose name is taken is rejected, and the report names the line of the declaration that
-- is kept. What the body of the rejected routine is makes no difference at all unless a routine of
-- the program was kept. If one was kept, then the body is checked in the scope of that routine: the
-- other scopes are the same for all bodies, and so are all diagnostics apart from those in the body
-- itself and in the definitions of this name that are checked behind it.
theorem rejected_body (source : String) (gap : Gap) (head : Header) (body : List Stmt)
    (hitems : (Parsed.ofSource source).items = gap.fill (head.routine body))
    (hd : ∃ d ∈ (ofItems (gap.fill (head.routine body))).diagnostics,
      d.kind = .duplicateDeclaration ∧ d.loc = head.loc) :
    ∃ kept, (ofItems (gap.fill (head.routine body))).symbols.declared? gap.className head.name =
        some kept ∧
      (∀ other, Problem.diagnostic ⟨.duplicate head.name kept.loc.line, head.loc⟩ ∈
        (ofItems (gap.fill (head.routine other))).diagnostics) ∧
      ((∀ other, (ofItems (gap.fill (head.routine other))).diagnostics =
          (ofItems (gap.fill (head.routine body))).diagnostics ∧
        (ofItems (gap.fill (head.routine other))).symbols =
          (ofItems (gap.fill (head.routine body))).symbols) ↔ kept.isDefined = false) ∧
      ∀ other, FormedBody Token.IsName other →
        SameBeyond (fullName gap.className head.name)
          (head.routine body :: head.routine other ::
            gap.behind (fullName gap.className head.name))
          (ofItems (gap.fill (head.routine body))) (ofItems (gap.fill (head.routine other))) := by
  have hf : ∀ item ∈ gap.fill (head.routine body), item.FormedItem Token.IsName := hitems ▸
    Parsed.ofTokens_formed (Lexed.ofSource source).tokens.toList (Lexed.ofSource_isName source)
  have hn : (placesIn (gap.fill (head.routine body))).Nodup :=
    hitems ▸ Parsed.ofSource_places source
  obtain ⟨d, hmem, hkind, hloc⟩ := hd
  obtain ⟨p, hp, rfl⟩ := mem_diagnostics.mp hmem
  have hp := Gap.mem_declareItems hf hn hp hkind hloc
  obtain ⟨first, hfirst, hcause⟩ := Gap.told_declareItems hf hn p hp hkind hloc
  obtain ⟨kept, hkept, -, hline⟩ := exists_of_untyped (declared?_checkItems _ _ _) hfirst
  refine ⟨kept, hkept, fun other => mem_diagnostics.mpr ⟨p, ?_, ?_⟩, same_iff hf hkept,
    fun other ho => sameBeyond_of_agree (Gap.agree_fill hf ho)⟩
  · rw [Gap.declareItems_fill gap head body other] at hp
    exact problems_checkItems _ hp
  · rw [hline, ← hcause, ← hloc]
    rfl

def twice : String :=
  "void f(int a) \x7b \x7d void f(int b) \x7b int a; \x7d"

theorem twice_items : ∃ (gap : Gap) (head : Header) (body : List Stmt),
    (Parsed.ofSource twice).items = gap.fill (head.routine body) ∧
      (∃ d ∈ (ofItems (gap.fill (head.routine body))).diagnostics,
        d.kind = .duplicateDeclaration ∧ d.loc = head.loc) ∧
      (ofItems (gap.fill (head.routine body))).diagnostics ≠
        (ofItems (gap.fill (head.routine []))).diagnostics := by
  have htest : (Gap.ofLast? (Parsed.ofSource twice).items).any fun x =>
      ((checkItems (x.1.fill (x.2.1.routine x.2.2))).problems.any fun p =>
        p.cause.kind = .duplicateDeclaration ∧ p.loc = x.2.1.loc) &&
      (checkItems (x.1.fill (x.2.1.routine x.2.2))).problems.length ≠
        (checkItems (x.1.fill (x.2.1.routine []))).problems.length := by
    decide +kernel
  cases hlast : Gap.ofLast? (Parsed.ofSource twice).items
  case none => simp [hlast] at htest
  case some x =>
    obtain ⟨gap, head, body⟩ := x
    rw [hlast, Option.any_some, Bool.and_eq_true, List.any_eq_true, decide_eq_true_eq] at htest
    obtain ⟨⟨p, hp, hreport⟩, hlength⟩ := htest
    refine ⟨gap, head, body, Gap.fill_of_ofLast? hlast, ⟨p.diagnostic, ?_, ?_⟩, fun heq => ?_⟩
    · exact mem_diagnostics.mpr ⟨p, hp, rfl⟩
    · exact of_decide_eq_true hreport
    · rw [← length_diagnostics, ← length_diagnostics, heq] at hlength
      exact hlength rfl

theorem rejected_body_twice : ∃ (gap : Gap) (head : Header) (body : List Stmt) (kept : Symbol),
    (Parsed.ofSource twice).items = gap.fill (head.routine body) ∧
      (ofItems (gap.fill (head.routine body))).symbols.declared? gap.className head.name =
        some kept ∧ kept.isDefined ∧
      Problem.diagnostic ⟨.duplicate head.name kept.loc.line, head.loc⟩ ∈
        (ofItems (gap.fill (head.routine []))).diagnostics := by
  obtain ⟨gap, head, body, hitems, hreported, hdiffer⟩ := twice_items
  obtain ⟨kept, hkept, htold, hsame, -⟩ := rejected_body twice gap head body hitems hreported
  refine ⟨gap, head, body, kept, hitems, hkept, ?_, htold []⟩
  exact Bool.not_eq_false _ ▸ fun hfalse => hdiffer (hsame.mpr hfalse []).1.symm

-- Without its body less would be reported of the second routine.
theorem rejected_body_matters : ¬∀ (gap : Gap) (head : Header) (body other : List Stmt),
    (Parsed.ofSource twice).items = gap.fill (head.routine body) →
    (∃ d ∈ (ofItems (gap.fill (head.routine body))).diagnostics,
      d.kind = .duplicateDeclaration ∧ d.loc = head.loc) →
    (ofItems (gap.fill (head.routine body))).diagnostics =
      (ofItems (gap.fill (head.routine other))).diagnostics := by
  obtain ⟨gap, head, body, hitems, hreported, hdiffer⟩ := twice_items
  exact fun hall => hdiffer (hall gap head body [] hitems hreported)

end Checked

end Lumen
