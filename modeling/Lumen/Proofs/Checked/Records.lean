import Lumen.Proofs.Checked.Rejected
import Lumen.Proofs.Typing.Records

namespace Lumen

open Typing List Option SymbolTable Analysis

namespace Stmt

def headUnknown (t : SymbolTable) : Stmt → List Problem
  | .routine loc _ params returns _ _ =>
    returns.unknown t loc ++ params.flatMap fun p => p.type.unknown t p.loc
  | _ => []

-- The types in a class are looked at only if the class is new.
def declaredUnknown (t : SymbolTable) (new : Bool) : Stmt → List Problem
  | .classDef _ _ fields methods =>
    if new then
      fields.flatMap (fun f => (Declaration.ofField f).typeUnknown t) ++
        methods.flatMap (headUnknown t)
    else []
  | .variable loc name type init => Declaration.typeUnknown t ⟨name, loc, type, init, false, false⟩
  | .constant loc name type value =>
    Declaration.typeUnknown t ⟨name, loc, some type, some value, true, false⟩
  | s => s.headUnknown t

-- The value of a global is spared its class only if the name stands for this global.
def globalUnknown (t : SymbolTable) (d : Declaration) : List Problem :=
  (t.inScope? global d.name).toList.flatMap fun s => d.valueUnknown t (s.loc = d.loc)

def mainUnknown (t : SymbolTable) : Stmt → List Problem
  | .classDef .. | .routine .. => []
  | .variable loc name type init => globalUnknown t ⟨name, loc, type, init, false, false⟩
  | .constant loc name type value => globalUnknown t ⟨name, loc, some type, some value, true, false⟩
  | s => s.unknown t

-- A body is looked at if there is a scope for it.
def bodyUnknown (t : SymbolTable) (className : Option String) : Stmt → List Problem
  | .routine _ name _ _ _ body =>
    if (t.routineScope? (fullName className name)).isSome then unknownIn t body else []
  | _ => []

end Stmt

namespace Typing

namespace Task

-- The members of a class are looked at if there is a class of its name, new or not.
def unknown (t : SymbolTable) : Task → List Problem
  | .field className f =>
    if t.isClass className then (Declaration.ofField f).valueUnknown t true else []
  | .routine className item =>
    if (t.owner? className).isSome then item.bodyUnknown t className else []

def nodes : Task → List Expr
  | .field _ f => nodesOfField f
  | .routine _ item => item.nodes

def className : Task → Option String
  | .field className _ => some className
  | .routine className _ => className

end Task

variable {t : SymbolTable} {a : Analysis} {r : Option String}

section Declared

theorem paramTypes_records (a : Analysis) (done : List Ty) (params : List Param) :
    a.Records t r [] (params.flatMap fun p => p.type.unknown t p.loc)
      (a.paramTypes done params).2 := by
  induction params generalizing a done
  case nil => exact .refl a
  case cons p params ih => exact (Records.typeOf a p.type p.loc).trans (ih _ _)

theorem declareParams_records (a : Analysis) (scope : Nat) (params : List Param)
    (types : List Ty) : a.Records t r [] [] (a.declareParams scope params types) := by
  fun_induction declareParams a scope params types
  case case1 a p params type types a₁ a₂ ih =>
    exact .next (.next (.reportIf a _ _ p.loc rfl) (.declareIn a₁ scope _)) ih
  case case2 => exact .refl _

theorem declareRoutine_records (a : Analysis) (className : Option String) (owner : Nat)
    (item : Stmt) :
    a.Records t r [] (item.headUnknown t) (a.declareRoutine className owner item) := by
  cases item <;> try exact .refl a
  case routine loc name params returns isStatic body =>
    have hhead := (Records.typeOf (t := t) (r := r) a returns loc).trans
      (paramTypes_records _ [] params)
    simp only [declareRoutine]
    split
    · exact hhead.next (.report _ _ loc rfl)
    · refine hhead.next (.after ?_ (declareParams_records _ _ params _))
      exact .of_problems rfl rfl rfl

theorem declareFields_records (a : Analysis) (scope : Nat) (fields : List (Field Expr)) :
    a.Records t r [] (fields.flatMap fun f => (Declaration.ofField f).typeUnknown t)
      (a.declareFields scope fields) := by
  induction fields generalizing a
  case nil => exact .refl a
  case cons f fields ih =>
    have htype : a.Records t r [] ((Declaration.ofField f).typeUnknown t)
        (a.typeOf f.type f.loc).2 := by
      simpa [Declaration.typeUnknown, Declaration.ofField] using Records.typeOf a f.type f.loc
    exact (htype.next (.declareIn _ scope _)).trans (ih _)

theorem declareItem_records (a : Analysis) (item : Stmt) (scope : Option Nat) :
    a.Records t r [] (item.declaredUnknown t scope.isSome) (a.declareItem item scope) := by
  have hglobal (d : Declaration) (type : TypeName) (hd : d.type = some type) (symbol : Symbol) :
      a.Records t r [] (d.typeUnknown t) ((a.typeOf type d.loc).2.declareIn global symbol) := by
    simpa [Declaration.typeUnknown, hd] using
      (Records.typeOf a type d.loc).next (.declareIn _ global symbol)
  cases item <;> try exact .refl a
  case classDef loc name fields methods =>
    cases scope
    case none => exact .refl a
    case some scope =>
      have hmethods := Records.foldl (I := fun _ => True) methods (fun _ _ _ _ => trivial)
        (fun m _ b _ => declareRoutine_records (t := t) (r := r) b (some name) scope m)
        (a := a.declareFields scope fields) trivial
      exact (declareFields_records a scope fields).trans (hmethods.widen id (by simp))
  case routine loc name params returns isStatic body =>
    exact declareRoutine_records a none global (.routine loc name params returns isStatic body)
  case «variable» loc name type init =>
    cases type
    case none => exact .declareIn a global _
    case some type => exact hglobal ⟨name, loc, some type, init, _, _⟩ type rfl _
  case constant loc name type value =>
    exact hglobal ⟨name, loc, some type, some value, _, _⟩ type rfl _

theorem unknown_classSteps (found : Analysis × List (Option Nat)) (items : Items) :
    (items.foldl classStep found).1.unknown = found.1.unknown := by
  induction items generalizing found
  case nil => rfl
  case cons item items ih =>
    refine (ih _).trans ?_
    cases item <;> try rfl
    case classDef loc name fields methods =>
      simp only [classStep, declareClass]
      split <;> rfl

-- The scope of each item that brings a new class.
def classScopes (items : Items) : List (Option Nat) :=
  (empty.declareBuiltIns.declareClasses items).2

theorem unknown_declareItems {items : Items} (ht : (declareItems items).table.classes = t.classes) :
    (declareItems items).unknown =
      (items.zip (classScopes items)).flatMap fun x => x.1.declaredUnknown t x.2.isSome := by
  have hrecords := Records.foldl (t := t) (r := none) (I := fun _ => True)
    (items.zip (classScopes items)) (fun _ _ _ _ => trivial)
    (fun x _ a _ => declareItem_records a x.1 x.2)
    (a := (items.foldl classStep (empty.declareBuiltIns, [])).1) trivial
  have hstart := unknown_classSteps (empty.declareBuiltIns, []) items
  exact (hrecords.unknown (hrecords.classes.symm.trans ht)).trans (by rw [hstart]; rfl)

end Declared

section Checked

theorem checkGlobal_records (place : Place) (d : Declaration)
    (h : (a.table.inScope? global d.name).map Symbol.untyped =
      (t.inScope? global d.name).map Symbol.untyped) :
    a.Records t place.receiver? (nodesOfOption d.init) (Stmt.globalUnknown t d)
      (checkGlobal place a d.name d.type d.init d.loc) := by
  obtain ⟨name, loc, type, init, isConst, isParam⟩ := d
  simp only [checkGlobal, Stmt.globalUnknown, Declaration.valueUnknown]
  cases hs : a.table.inScope? global name
  case none =>
    rw [hs, map_none, eq_comm, map_eq_none_iff] at h
    rw [h]
    exact Records.idle a
  case some symbol =>
    obtain ⟨symbol', hs', -, hloc'⟩ := exists_of_untyped h.symm hs
    rw [hs', toList_some, flatMap_singleton, hloc']
    by_cases hloc : symbol.loc = loc <;> cases init <;> simp [hloc]
    case pos.none => exact .reportIf a _ _ loc rfl
    case pos.some init =>
      have hvalue := Records.inferInitial (t := t) place a type init
      cases type
      case none => exact (hvalue.next (.variableType _ name _ loc)).next (.of_problems rfl rfl rfl)
      case some type => exact (hvalue.next (.reportIf _ _ _ loc rfl)).next (.reportIf _ _ _ loc rfl)
    case neg.none => exact .refl a
    case neg.some init => exact .infer place a init

theorem checkItem_records (place : Place) {item : Stmt}
    (h : ∀ name, (a.table.inScope? global name).map Symbol.untyped =
      (t.inScope? global name).map Symbol.untyped) :
    a.Records t place.receiver? item.nodes (item.mainUnknown t) (checkItem place a item) := by
  cases item
  case classDef | routine => exact Records.idle a
  case «variable» loc name type init =>
    exact checkGlobal_records place ⟨name, loc, type, init, _, _⟩ (h name)
  case constant loc name type value =>
    exact checkGlobal_records place ⟨name, loc, some type, some value, _, _⟩ (h name)
  all_goals exact checkStmt_records place false a _

theorem checkField_records (place : Place) (scope : Nat) (a : Analysis) (f : Field Expr) :
    a.Records t place.receiver? (nodesOfField f) ((Declaration.ofField f).valueUnknown t true)
      (checkField place scope a f) := by
  obtain ⟨name, type, init, isConst, loc⟩ := f
  simp only [checkField, Declaration.valueUnknown, Declaration.ofField]
  cases init
  case none => exact .refl a
  case some init =>
    simp only [toList_some, flatMap_singleton, if_true]
    exact .next (.inferInitial place a (some type) init) (.reportIf _ _ _ _ rfl)

theorem checkRoutine_records (className : Option String) (outer : List Nat) (item : Stmt)
    (h : a.table.routines = t.routines) :
    a.Records t className item.nodes (item.bodyUnknown t className)
      (checkRoutine className outer a item) := by
  cases item <;> try exact Records.idle a
  case routine loc name params returns isStatic body =>
    have hscope (q : String) : a.table.routineScope? q = t.routineScope? q := by
      rw [routineScope?, h, routineScope?]
    simp only [checkRoutine, Stmt.bodyUnknown, hscope]
    cases t.routineScope? (fullName className name)
    case none => exact Records.idle a
    case some scope =>
      refine .widen ((checkBody_records _ false a body).next (.reportIf _ _ _ loc rfl)) ?_
        (List.Subset.refl _)
      rintro rfl
      exact ite_self none

theorem Task.run_records (task : Task) (hc : a.table.classes = t.classes)
    (hr : a.table.routines = t.routines) :
    a.Records t task.className task.nodes (task.unknown t) (task.run a) := by
  cases task
  case field className f =>
    have hclass : t.isClass className = (a.table.classScope? className).isSome := by
      rw [isClass, ← hc, classScope?, Std.TreeMap.isSome_getElem?_eq_contains]
    simp only [run, Task.unknown, hclass]
    cases a.table.classScope? className
    case none => exact Records.idle a
    case some scope => exact checkField_records (fieldPlace className scope) scope a f
  case routine className item =>
    have howner : t.owner? className = a.table.owner? className := by
      cases className <;> simp [owner?, hc]
    simp only [run, Task.unknown, howner]
    cases a.table.owner? className
    case none => exact Records.idle a
    case some owner => exact checkRoutine_records className _ item hr

end Checked

theorem tasks_records {r : Option String} (list : List Task) (hc : a.table.classes = t.classes)
    (hr : a.table.routines = t.routines) (hlist : r = none → ∀ task ∈ list, task.className = none) :
    a.Records t r (list.flatMap Task.nodes) (list.flatMap (Task.unknown t))
      (list.foldl Task.run a) := by
  refine .foldl (I := fun a => a.table.classes = t.classes ∧ a.table.routines = t.routines) list
    (fun task _ a ha => ?_) (fun task hm a ha => ?_) ⟨hc, hr⟩
  · obtain ⟨ids, es, hadv⟩ := task.run_advances a
    exact ⟨hadv.classes.trans ha.1, hadv.routines.trans ha.2⟩
  · exact (task.run_records ha.1 ha.2).widen (hlist · task hm) (List.Subset.refl _)

theorem mem_routineTasks {item : Stmt} {task : Task} (h : task ∈ item.routineTasks) :
    task = .routine none item := by
  rw [Stmt.routineTasks] at h
  split at h
  · exact mem_singleton.mp h
  · cases h

theorem classTasks_nodes {item : Stmt} {task : Task} (h : task ∈ item.classTasks) :
    task.nodes ⊆ item.nodes ∧
      ∃ loc name fields methods, item = .classDef loc name fields methods := by
  cases item <;> try cases h
  case classDef loc name fields methods =>
    refine ⟨fun e he => ?_, _, _, _, _, rfl⟩
    rw [Stmt.nodes, nodesOfFields_eq_flatMap, nodesIn_eq_flatMap, mem_append, mem_flatMap,
      mem_flatMap]
    rcases mem_append.mp h with h | h
    · obtain ⟨f, hf, rfl⟩ := List.mem_map.mp h
      exact .inl ⟨f, hf, he⟩
    · obtain ⟨m, hm, rfl⟩ := List.mem_map.mp h
      exact .inr ⟨m, hm, he⟩

-- The passes behind the declarations: the statements at top level, the classes and the routines.
theorem checkItems_records (items : Items) :
    let t := (checkItems items).table
    ∃ b c, (declareItems items).Records t none (items.flatMap Stmt.nodes)
        (items.flatMap (Stmt.mainUnknown t)) b ∧
      b.Records t (some "") ((items.flatMap Stmt.classTasks).flatMap Task.nodes)
        ((items.flatMap Stmt.classTasks).flatMap (Task.unknown t)) c ∧
      c.Records t none ((items.flatMap Stmt.routineTasks).flatMap Task.nodes)
        ((items.flatMap Stmt.routineTasks).flatMap (Task.unknown t)) (checkItems items) := by
  intro t
  have hretyped := retyped_checkItems items
  have hlt := lt_of_header? (collected_declareItems items).headed.global
  have hhome : (mainPlace (declareItems items)).home ≠ global := Nat.ne_of_gt hlt
  set b := checkMain items (declareItems items)
  set c := (items.flatMap Stmt.classTasks).foldl Task.run b
  have hlast : checkItems items = (items.flatMap Stmt.routineTasks).foldl Task.run c := by
    rw [checkItems_eq_tasks, tasks, foldl_append]
  obtain ⟨hc, hr⟩ := Task.foldl_names c (items.flatMap Stmt.routineTasks)
  obtain ⟨hc', hr'⟩ := Task.foldl_names b (items.flatMap Stmt.classTasks)
  rw [← hlast] at hc hr
  have hstart : (declareItems items).Records t none [] [] (mainStart (declareItems items)) :=
    .of_problems rfl rfl rfl
  refine ⟨b, c, hstart.after ?_, ?_, ?_⟩
  · refine .foldl (I := fun a => ∀ name, (a.table.inScope? global name).map Symbol.untyped =
      (t.inScope? global name).map Symbol.untyped) items
      (fun item _ a ha name => (global_checkItem hhome a item name).trans (ha name))
      (fun item _ a ha => checkItem_records (mainPlace (declareItems items)) ha) fun name => ?_
    rw [inScope?_congr (scopes_mainStart hlt)]
    exact (hretyped.global name).symm
  · exact tasks_records _ (hc'.symm.trans hc.symm) (hr'.symm.trans hr.symm)
      (absurd · (some_ne_none _))
  · rw [hlast]
    refine tasks_records _ hc.symm hr.symm fun _ task hm => ?_
    obtain ⟨item, -, hm⟩ := mem_flatMap.mp hm
    rw [mem_routineTasks hm]
    rfl

theorem unknown_checkItems (items : Items) :
    let t := (checkItems items).table
    (checkItems items).unknown =
      ((items.zip (classScopes items)).flatMap fun x => x.1.declaredUnknown t x.2.isSome) ++
        items.flatMap (Stmt.mainUnknown t) ++ (tasks items).flatMap (Task.unknown t) := by
  intro t
  have hretyped := retyped_checkItems items
  obtain ⟨b, c, hmain, hclasses, hroutines⟩ := checkItems_records items
  have hb := hmain.classes.trans hretyped.classes.symm
  rw [hroutines.unknown (hclasses.classes.trans hb), hclasses.unknown hb,
    hmain.unknown hretyped.classes.symm, unknown_declareItems hretyped.classes.symm, tasks,
    flatMap_append, append_assoc, append_assoc]

end Typing

theorem Listed.eq_of_id {nodes : List Expr} {ids : List Nat} (h : Listed nodes ids)
    (hn : ids.Nodup) {e e' : Expr} {id : Nat} (he : e ∈ nodes) (he' : e' ∈ nodes)
    (hid : e.id? = some id) (hid' : e'.id? = some id) : e = e' := by
  have hnodup : (nodes.map Expr.id?).Nodup := by
    rw [h.ids]
    exact hn.map fun _ _ => Option.some.inj
  exact inj_on_of_nodup_map hnodup he he' (hid.trans hid'.symm)

namespace Checked

-- A type on record belongs to an expression. Outside of classes there is no object for `this`.
theorem about_of_types {items : Items} {id : Nat} {ty : Ty}
    (h : (ofItems items).types[id]? = some ty) : ∃ item ∈ items, ∃ e ∈ item.nodes,
      e.id? = some id ∧ ((∃ loc name fields methods, item = .classDef loc name fields methods) ∨
        ∀ m, e = .receiver m → ty = .error) := by
  obtain ⟨b, c, hmain, hclasses, hroutines⟩ := checkItems_records items
  rcases hroutines.types id ty h with h | ⟨e, he, hid, htype⟩
  · rcases hclasses.types id ty h with h | ⟨e, he, hid, -⟩
    · rcases hmain.types id ty h with h | ⟨e, he, hid, htype⟩
      · rw [(declares_declareItems items).untouched.2] at h
        simp [Analysis.empty] at h
      · obtain ⟨item, hi, he⟩ := mem_flatMap.mp he
        exact ⟨item, hi, e, he, hid, .inr (htype rfl)⟩
    · obtain ⟨task, htask, he⟩ := mem_flatMap.mp he
      obtain ⟨item, hi, htask⟩ := mem_flatMap.mp htask
      obtain ⟨hnodes, hclass⟩ := classTasks_nodes htask
      exact ⟨item, hi, e, hnodes he, hid, .inl hclass⟩
  · obtain ⟨task, htask, he⟩ := mem_flatMap.mp he
    obtain ⟨item, hi, htask⟩ := mem_flatMap.mp htask
    rw [mem_routineTasks htask] at he
    exact ⟨item, hi, e, he, hid, .inr (htype rfl)⟩

theorem typeAt_receiver {items : Items} (hn : (idsIn items).Nodup) {item : Stmt}
    (hi : item ∈ items) (hc : ∀ loc name fields methods, item ≠ .classDef loc name fields methods)
    {m : Mark} (hm : .receiver m ∈ item.nodes) : (ofItems items).typeAt m.id = .error := by
  cases htype : (ofItems items).types[m.id]?
  case none => rw [typeAt, htype]; rfl
  case some ty =>
    rw [typeAt, htype, getD_some]
    obtain ⟨item', hi', e, he, hid, hthis⟩ := about_of_types htype
    have hmem {s : Stmt} {x : Expr} (hs : s ∈ items) (hx : x ∈ s.nodes) : x ∈ nodesIn items := by
      rw [nodesIn_eq_flatMap]
      exact mem_flatMap.mpr ⟨s, hs, hx⟩
    -- No two expressions have one number, so that the type is that of `this`.
    cases (listedIn items).eq_of_id hn (hmem hi' he) (hmem hi hm) hid rfl
    rw [idsIn_eq_flatMap] at hn
    cases eq_of_nodup_flatMap hn hi' hi (item'.listed.mem he rfl) (item.listed.mem hm rfl)
    rcases hthis with ⟨loc, name, fields, methods, hclass⟩ | htype
    · exact absurd hclass (hc loc name fields methods)
    · exact htype m rfl

-- All reports on classes that are not known: those of the declared types, those of the statements
-- and globals, and those of the members and routines. So `T x = new T(..)` gives one report, at its
-- type; a global whose name stands for another one gives a second, at `new`; and a field gives none
-- if there has been another class of that name.
theorem diagnostics_unknown (items : Items) :
    let c := ofItems items
    (c.diagnostics.filter (·.kind = .undefinedClass)).Perm
      (((items.zip (classScopes items)).flatMap
          (fun x => x.1.declaredUnknown c.symbols x.2.isSome) ++
        items.flatMap (Stmt.mainUnknown c.symbols) ++
        (tasks items).flatMap (Task.unknown c.symbols)).map Problem.diagnostic) ∧
    ∀ (d : Declaration) (className : String) (m : Mark) (args : List Expr),
      c.symbols.isClass className = false → d.type = some (.named className) →
      d.init = some (.create m (.named className) args) →
        d.typeUnknown c.symbols = [⟨.undefinedClass className, d.loc⟩] ∧
        d.valueUnknown c.symbols true = unknownOf c.symbols args ∧
        d.valueUnknown c.symbols false =
          unknownOf c.symbols args ++ [⟨.undefinedClass className, m.loc⟩] := by
  refine ⟨?_, fun d className m args hc ht hi => d.unknown_create hc ht hi⟩
  rw [ofItems, ← unknown_checkItems items]
  refine ((Diagnostic.sorted_perm _).filter _).trans (.of_eq ?_)
  rw [List.filter_map, Analysis.unknown, ← filter_reverse]
  refine congrArg _ (filter_congr fun p _ => ?_)
  rw [Bool.eq_iff_iff, Cause.isUnknown_iff]
  simp [Problem.diagnostic]

-- No report on the second class, two on the second `x` and one on `y`.
theorem diagnostics_unknown_new :
    let c := ofItems (Parsed.ofSource ("class A \x7b\x7d class A \x7b Foo f = new Foo(); \x7d " ++
      "int x; Foo x = new Foo(); Foo y = new Foo();")).items
    let y : Declaration := ⟨"y", ⟨1, 69⟩, some (.named "Foo"),
      some (.create ⟨3, ⟨1, 77⟩⟩ (.named "Foo") []), false, false⟩
    (c.diagnostics.filter (·.kind = .undefinedClass)).Perm
      ([⟨1, 50⟩, ⟨1, 69⟩, ⟨1, 58⟩].map fun loc => Problem.diagnostic ⟨.undefinedClass "Foo", loc⟩) ∧
    y.typeUnknown c.symbols = [⟨.undefinedClass "Foo", ⟨1, 69⟩⟩] ∧
      y.valueUnknown c.symbols true = [] ∧
      y.valueUnknown c.symbols false = [⟨.undefinedClass "Foo", ⟨1, 77⟩⟩] := by
  intro c y
  refine (fun h : _ ∧ _ => ⟨(diagnostics_unknown _).1.trans (.of_eq h.1),
    (diagnostics_unknown _).2 y "Foo" ⟨3, ⟨1, 77⟩⟩ [] h.2 rfl rfl⟩) ?_
  decide +kernel

end Checked
end Lumen
