import Lumen.Proofs.Checked.Order
import Lumen.Proofs.Checked.Reports

namespace Lumen

open Typing List Option SymbolTable Analysis

def Stmt.tells (item : Stmt) (kind : Diagnostic.Kind) (loc : Location) : Bool :=
  match item with
  | .routine own _ _ _ _ body => loc ∈ placesIn body ∨ (kind = .missingReturn ∧ loc = own)
  | _ => false

theorem Scope.eq_of_loose {s s' : Scope} (h : s.loose = s'.loose) (ho : s.outline = s'.outline) :
    s = s' := by
  obtain ⟨kind, name, parent, symbols, retired, order⟩ := s
  obtain ⟨kind', name', parent', symbols', retired', order'⟩ := s'
  simp_all [Scope.loose, Scope.outline]

namespace Typing

inductive Task where
  | field (className : String) (f : Field Expr)
  | routine (className : Option String) (item : Stmt)

namespace Task

def run (a : Analysis) : Task → Analysis
  | .field className f =>
    match a.table.classScope? className with
    | none => a
    | some scope => checkField (fieldPlace className scope) scope a f
  | .routine className item =>
    match a.table.owner? className with
    | none => a
    | some _ => checkRoutine className (a.table.outer className) a item

def routine? : Task → Option (String × Stmt)
  | .field _ _ => none
  | .routine className item => (item.routineName? className).map (·, item)

end Task
end Typing

def Stmt.classTasks : Stmt → List Task
  | .classDef _ name fields methods =>
    fields.map (.field name) ++ methods.map (.routine (some name))
  | _ => []

def Stmt.routineTasks (item : Stmt) : List Task :=
  if (item.routineName? none).isSome then [.routine none item] else []

def tasks (items : Items) : List Task :=
  items.flatMap Stmt.classTasks ++ items.flatMap Stmt.routineTasks

namespace Typing

theorem Task.run_advances (a : Analysis) (task : Task) :
    ∃ ids es, a.Advances (fun i => ∃ x, task.routine? = some x ∧ a.table.routineScope? x.1 = some i)
      ids es (task.run a) := by
  cases task
  case field className f =>
    simp only [run]
    split
    case h_1 => exact ⟨_, _, .refl a⟩
    case h_2 => exact ⟨_, _, checkField_advances _ _ a f⟩
  case routine className item =>
    simp only [run]
    split
    case h_1 => exact ⟨_, _, .refl a⟩
    case h_2 =>
      refine ⟨_, _, checkRoutine_advances className _ a fun q hq i hi => ⟨(q, item), ?_, hi⟩⟩
      simp only [routine?, map_eq_some_iff]
      exact ⟨q, hq, rfl⟩

-- Two ways to take each step, which do the same wherever `P` holds.
theorem foldl_congr_of {α : Type} (step step' : Analysis → α → Analysis) {P : Analysis → Prop}
    (xs : List α) (h : ∀ a, ∀ x ∈ xs, P a → step a x = step' a x ∧ P (step a x)) (hp : P a) :
    xs.foldl step a = xs.foldl step' a ∧ P (xs.foldl step a) := by
  induction xs generalizing a
  case nil => exact ⟨rfl, hp⟩
  case cons x xs ih =>
    obtain ⟨hstep, hkeeps⟩ := h a x mem_cons_self hp
    rw [foldl_cons, foldl_cons, ← hstep]
    exact ih (fun a y hy => h a y (mem_cons_of_mem x hy)) hkeeps

-- A class is checked member by member. Its scope stays where it is.
theorem checkClass_eq_tasks (a : Analysis) (item : Stmt) :
    checkClass a item = item.classTasks.foldl Task.run a := by
  cases item <;> try rfl
  case classDef loc name fields methods =>
    simp only [checkClass, Stmt.classTasks, foldl_append, foldl_map]
    cases hscope : a.table.classScope? name
    case none =>
      have howner : a.table.owner? (some name) = none := hscope
      have hfield (f : Field Expr) : Task.run a (.field name f) = a := by
        simp only [Task.run, hscope]
      have hmethod (m : Stmt) : Task.run a (.routine (some name) m) = a := by
        simp only [Task.run, howner]
      rw [foldl_fixed' (f := fun a f => Task.run a (.field name f)) hfield,
        foldl_fixed' (f := fun a m => Task.run a (.routine (some name) m)) hmethod]
    case some scope =>
      have hkept {H : Nat → Prop} {ids : List Nat} {es : List Exit} {b c : Analysis}
          (h : b.Advances H ids es c)
          (hb : b.table.classScope? name = some scope) : c.table.classScope? name = some scope := by
        rw [classScope?, h.classes]
        exact hb
      obtain ⟨hfields, hmid⟩ := foldl_congr_of (P := fun a => a.table.classScope? name = some scope)
        (checkField (fieldPlace name scope) scope) (fun a f => Task.run a (.field name f)) fields
        (fun b f _ hb => by
          refine ⟨?_, hkept (checkField_advances (H := fun _ => False) _ _ b f) hb⟩
          simp only [Task.run, hb]) hscope
      obtain ⟨hmethods, -⟩ := foldl_congr_of (P := fun a => a.table.classScope? name = some scope)
        (checkRoutine (some name) [scope, global])
        (fun a m => Task.run a (.routine (some name) m)) methods
        (fun b m _ hb => by
          refine ⟨?_, hkept (checkRoutine_advances (H := fun _ => True) _ _ b (by simp)) hb⟩
          have howner : b.table.owner? (some name) = some scope := hb
          simp only [Task.run, howner, outer, hb]
          rfl) hmid
      rw [← hfields, ← hmethods]
      rfl

theorem checkRoutine_eq_tasks (a : Analysis) (item : Stmt) :
    checkRoutine none [global] a item = item.routineTasks.foldl Task.run a := by
  cases item <;> rfl

theorem checkItems_eq_tasks (items : Items) : checkItems items =
    (tasks items).foldl Task.run (checkMain items (declareItems items)) := by
  rw [tasks, foldl_append, foldl_flatMap, foldl_flatMap]
  simp only [← checkClass_eq_tasks, ← checkRoutine_eq_tasks]
  rfl

theorem Task.run_tells {W : String → Prop} (a : Analysis) (className : Option String) {item : Stmt}
    (hf : item.FormedRoutine W) : ∃ made, (run a (.routine className item)).problems =
      made ++ a.problems ∧ ∀ p ∈ made, item.tells p.cause.kind p.loc := by
  cases item <;> try exact hf.elim
  case routine loc name params returns isStatic body =>
    simp only [run]
    split
    case h_1 => exact ⟨[], rfl, by simp⟩
    case h_2 =>
      simp only [checkRoutine]
      split
      case h_1 => exact ⟨[], rfl, by simp⟩
      case h_2 scope _ =>
        obtain ⟨made, hadds, hreport, -⟩ := checkBody_checks ⟨fullName className name,
          resultType a.table returns, if isStatic then none else className,
          scope :: a.table.outer className⟩ false a body hf.2.2.2
        have hinside : ∀ p ∈ made.reverse,
            (Stmt.routine loc name params returns isStatic body).tells p.cause.kind p.loc := by
          intro p hp
          simp [Stmt.tells, hreport.inside p (mem_reverse.mp hp)]
        simp only [reportIf]
        split
        case isFalse => exact ⟨made.reverse, hadds, hinside⟩
        case isTrue =>
          refine ⟨⟨.missingReturn name (resultType a.table returns), loc⟩ :: made.reverse,
            congrArg (List.cons _) hadds, forall_mem_cons.mpr ⟨?_, hinside⟩⟩
          simp [Stmt.tells, Cause.kind]

def Key.Apart (q : String) : Key → Prop
  | .symbol _ | .isClass _ | .classScope _ => True
  | .routineScope name => name ≠ q
  | .type _ => False

structure Agree (q : String) (own : List Stmt) (a b : Analysis) : Prop where
  idle     : a.Idle
  blocks   : b.blocks = []
  classes  : b.table.classes = a.table.classes
  routines : b.table.routines = a.table.routines
  outline  : ∀ i : Nat,
    b.table.scopes[i]?.map Scope.outline = a.table.scopes[i]?.map Scope.outline
  scopes   : ∀ i : Nat, a.table.routineScope? q ≠ some i → b.table.scopes[i]? = a.table.scopes[i]?
  problems : b.problems.filter (fun p => !own.any (·.tells p.cause.kind p.loc)) =
    a.problems.filter (fun p => !own.any (·.tells p.cause.kind p.loc))

namespace Agree

variable {q : String} {own : List Stmt} {a b a' b' : Analysis}

theorem refl (h : a.Idle) : Agree q own a a :=
  ⟨h, h.blocks, rfl, rfl, fun _ => rfl, fun _ _ => rfl, rfl⟩

theorem headed (h : Agree q own a b) : b.table.Headed := by
  have hheader (i : Nat) : b.table.header? i = a.table.header? i := by
    simpa [header?, Function.comp_def, Scope.outline] using
      congrArg (Option.map fun head => (head.1, head.2.1)) (h.outline i)
  refine ⟨(hheader _).trans h.idle.headed.global, fun name i hi => ?_, fun name i hi => ?_⟩
  · rw [classScope?, h.classes] at hi
    exact (hheader i).trans (h.idle.headed.classes name i hi)
  · rw [routineScope?, h.routines] at hi
    exact (hheader i).trans (h.idle.headed.routines name i hi)

theorem symm (h : Agree q own a b) : Agree q own b a where
  idle := ⟨h.headed, h.blocks⟩
  blocks := h.idle.blocks
  classes := h.classes.symm
  routines := h.routines.symm
  outline := fun i => (h.outline i).symm
  scopes := fun i hi => (h.scopes i (by
    rw [routineScope?, ← h.routines]
    exact hi)).symm
  problems := h.problems.symm

def Common (q : String) (a : Analysis) (i j : Nat) : Prop :=
  i = j ∧ i ≠ global ∧ i < a.table.scopes.size ∧ a.table.routineScope? q ≠ some i

theorem not_routine (h : a.table.Headed) (hi : a.table.header? i = some (kind, name))
    (hne : kind = .method → name ≠ q) : a.table.routineScope? q ≠ some i := by
  intro hq
  cases hi.symm.trans (h.routines q i hq)
  exact hne rfl rfl

theorem common_of_header (h : a.table.Headed) (hi : a.table.header? i = some (kind, name))
    (hk : kind ≠ .global) (hne : kind = .method → name ≠ q) : Common q a i i := by
  refine ⟨rfl, ?_, lt_of_header? hi, not_routine h hi hne⟩
  rintro rfl
  cases hi.symm.trans h.global
  exact hk rfl

theorem twins (h : Agree q own a b) : Twins (Key.Apart q) (Common q a) a b where
  pairing := {
    left := by
      rintro i j j' ⟨rfl, -⟩ ⟨rfl, -⟩
      rfl
    right := by
      rintro i i' j ⟨rfl, -⟩ ⟨rfl, -⟩
      rfl
    global := by
      rintro i j ⟨rfl, hi, -⟩
      exact ⟨hi, hi⟩ }
  blocks := h.idle.blocks.trans h.blocks.symm
  outer := by
    obtain ⟨s, hs⟩ := Headed.scope h.idle.headed.global
    refine ⟨s.kind, by rw [hs]; rfl, ?_⟩
    rw [h.scopes _ (not_routine h.idle.headed h.idle.headed.global (by simp)), hs]
    rfl
  symbols := fun name _ => (inScope?_congr
    (h.scopes _ (not_routine h.idle.headed h.idle.headed.global (by simp))) name).symm
  known := fun name _ => (congrFun (isClass_congr h.classes) name).symm
  classes := fun name _ => by
    have hsame : b.table.classScope? name = a.table.classScope? name :=
      congrArg (·[name]?) h.classes
    rw [hsame]
    cases hi : a.table.classScope? name
    case none => exact .none
    case some i =>
      exact .some
        (common_of_header h.idle.headed (h.idle.headed.classes name i hi) (by simp) (by simp))
  routines := fun name hne => by
    have hsame : b.table.routineScope? name = a.table.routineScope? name :=
      congrArg (·[name]?) h.routines
    rw [hsame]
    cases hi : a.table.routineScope? name
    case none => exact .none
    case some i =>
      exact .some (common_of_header h.idle.headed (h.idle.headed.routines name i hi) (by simp)
        fun _ => hne)
  types := fun id hq => hq.elim
  scopes := by
    rintro i j ⟨rfl, -, hlt, hne⟩
    refine ⟨a.table.scopes[i].loose, by simp [hlt], ?_⟩
    rw [h.scopes i hne]
    simp [hlt]

theorem right (h : Agree q own a b)
    (hadv : b.Advances (fun i => b.table.routineScope? q = some i) ids es b')
    (hm : b'.problems = made ++ b.problems)
    (hown : ∀ p ∈ made, own.any (·.tells p.cause.kind p.loc)) : Agree q own a b' where
  idle := h.idle
  blocks := hadv.none h.blocks
  classes := hadv.classes.trans h.classes
  routines := hadv.routines.trans h.routines
  outline := fun i => (hadv.outline i).trans (h.outline i)
  scopes := fun i hi => by
    refine (hadv.scopes i ?_).trans (h.scopes i hi)
    rw [routineScope?, h.routines]
    exact hi
  problems := by
    rw [hm, filter_append, filter_eq_nil_iff.mpr, nil_append, h.problems]
    intro p hp
    simp [hown p hp]

theorem of_together (h : Agree q own a b)
    (ht : Together (Key.Apart q) (Common q a) a b a' b') {H H' : Nat → Prop}
    (ha : a.Advances H ids es a') (hb : b.Advances H' ids' es' b') (hH : ¬H global)
    (hH' : ¬H' global) : Agree q own a' b' where
  idle := ⟨ha.headed h.idle.headed, ha.none h.idle.blocks⟩
  blocks := hb.none h.blocks
  classes := hb.classes.trans (h.classes.trans ha.classes.symm)
  routines := hb.routines.trans (h.routines.trans ha.routines.symm)
  outline := fun i => (hb.outline i).trans ((h.outline i).trans (ha.outline i).symm)
  scopes := fun i hi => by
    rw [routineScope?, ha.routines] at hi
    by_cases hglobal : i = global
    case pos =>
      subst hglobal
      rw [ha.scopes _ hH, hb.scopes _ hH', h.scopes _ hi]
    case neg =>
      have houtline := (hb.outline i).trans ((h.outline i).trans (ha.outline i).symm)
      by_cases hlt : i < a.table.scopes.size
      case pos =>
        obtain ⟨s, hs, hs'⟩ := ht.twins.scopes i i ⟨rfl, hglobal, hlt, hi⟩
        obtain ⟨x, hx, rfl⟩ := map_eq_some_iff.mp hs
        obtain ⟨y, hy, hloose⟩ := map_eq_some_iff.mp hs'
        rw [hx, hy] at houtline ⊢
        exact congrArg some (Scope.eq_of_loose hloose (Option.some.inj houtline))
      case neg =>
        have hnone : a'.table.scopes[i]? = none := by
          rw [Array.getElem?_eq_none_iff, ha.size]
          exact Nat.le_of_not_lt hlt
        rw [hnone] at houtline ⊢
        exact map_eq_none_iff.mp houtline
  problems := by
    obtain ⟨ps, hps, hps'⟩ := ht.problems
    rw [hps, hps', filter_append, filter_append, h.problems]

theorem wide : Wide (Key.Apart q) :=
  ⟨fun _ => trivial, fun _ => trivial, fun _ => trivial⟩

section

variable (h : Agree q own a b)

include h

theorem common_outer (ho : a.table.owner? className = some owner) :
    List.Forall₂ (fun i j => Common q a i j ∨ (i = global ∧ j = global))
      (a.table.outer className) (a.table.outer className) := by
  cases className
  case none => exact .cons (.inr ⟨rfl, rfl⟩) .nil
  case some className =>
    have hscope : a.table.classScope? className = some owner := ho
    simp only [outer, hscope]
    exact .cons (.inl (common_of_header h.idle.headed (h.idle.headed.classes _ _ hscope) (by simp)
      (by simp))) (.cons (.inr ⟨rfl, rfl⟩) .nil)

theorem owner?_eq (className : Option String) :
    b.table.owner? className = a.table.owner? className := by
  cases className
  case none => rfl
  case some className => exact congrArg (·[className]?) h.classes

theorem outer_eq (className : Option String) :
    b.table.outer className = a.table.outer className := by
  cases className
  case none => rfl
  case some className =>
    have hscope : b.table.classScope? className = a.table.classScope? className :=
      h.owner?_eq (some className)
    simp only [outer, hscope]

theorem run_together {task : Task}
    (hne : ∀ x, task.routine? = some x → x.1 ≠ q) :
    Together (Key.Apart q) (Common q a) a b (task.run a) (task.run b) := by
  cases task
  case field className f =>
    have hscope : b.table.classScope? className = a.table.classScope? className :=
      h.owner?_eq (some className)
    simp only [Task.run, hscope]
    cases hi : a.table.classScope? className
    case none => exact .refl h.twins
    case some i =>
      have hcommon : Common q a i i := common_of_header h.idle.headed
        (h.idle.headed.classes _ _ hi) (by simp) (by simp)
      exact checkField_together wide ⟨rfl, rfl, rfl, hcommon,
        .cons (.inl hcommon) (.cons (.inr ⟨rfl, rfl⟩) .nil)⟩ hcommon h.twins f
  case routine className item =>
    simp only [Task.run, h.owner?_eq, h.outer_eq]
    cases ho : a.table.owner? className
    case none => exact .refl h.twins
    case some owner =>
      refine checkRoutine_together wide h.twins (h.common_outer ho) fun n hn => ?_
      exact hne (n, item) (map_eq_some_iff.mpr ⟨n, hn, rfl⟩)

theorem run_own {W : String → Prop} {item : Stmt}
    (hq : item.routineName? className = some q) (hf : item.FormedRoutine W) (hown : item ∈ own) :
    Agree q own a (Task.run b (.routine className item)) := by
  obtain ⟨ids, _, hadv⟩ := Task.run_advances b (.routine className item)
  obtain ⟨made, hmade, htells⟩ := Task.run_tells b className hf
  refine h.right (hadv.widen fun i hi => ?_) hmade fun p hp => ?_
  · obtain ⟨x, hx, hi⟩ := hi
    simp only [Task.routine?, hq, map_some, Option.some.injEq] at hx
    subst hx
    exact hi
  · exact any_eq_true.mpr ⟨item, hown, htells p hp⟩

theorem run {W : String → Prop} {task : Task}
    (hown : ∀ x, task.routine? = some x → x.1 = q → x.2.FormedRoutine W ∧ x.2 ∈ own) :
    Agree q own (task.run a) (task.run b) := by
  by_cases hq : ∃ x, task.routine? = some x ∧ x.1 = q
  case pos =>
    obtain ⟨x, hx, hxq⟩ := hq
    obtain ⟨hf, hmem⟩ := hown x hx hxq
    cases task
    case field => cases hx
    case routine className item =>
      obtain ⟨n, hn, rfl⟩ := map_eq_some_iff.mp hx
      subst hxq
      exact ((h.run_own hn hf hmem).symm.run_own hn hf hmem).symm
  case neg =>
    obtain ⟨ids, _, ha⟩ := Task.run_advances a task
    obtain ⟨ids', _, hb⟩ := Task.run_advances b task
    have hglobal {c : Analysis} (hc : c.table.Headed) : ¬∃ x, task.routine? = some x ∧
        c.table.routineScope? x.1 = some global := by
      rintro ⟨x, -, hi⟩
      cases (hc.routines _ _ hi).symm.trans hc.global
    exact h.of_together (h.run_together fun x hx hxq => hq ⟨x, hx, hxq⟩) ha hb
      (hglobal h.idle.headed) (hglobal h.headed)

theorem foldl {W : String → Prop} {list : List Task}
    (hown : ∀ task ∈ list, ∀ x, task.routine? = some x → x.1 = q →
      x.2.FormedRoutine W ∧ x.2 ∈ own) :
    Agree q own (list.foldl Task.run a) (list.foldl Task.run b) := by
  induction list generalizing a b
  case nil => exact h
  case cons task list ih =>
    rw [forall_mem_cons] at hown
    exact ih (h.run hown.1) hown.2

end

end Agree

end Typing
end Lumen
