import Lumen.Proofs.Checked.Accepted
import Lumen.Proofs.Typing.Independence

namespace Lumen

open Typing Analysis SymbolTable
open List Option

def Stmt.itemName? : Stmt → Option String
  | .classDef _ name _ _ | .routine _ name _ _ _ _ | .variable _ name _ _ | .constant _ name _ _ =>
    some name
  | _ => none

def Typing.Key.item? : Key → Option String
  | .symbol name | .isClass name | .classScope name => some name
  | .routineScope name => some (String.ofList (name.toList.takeWhile (· ≠ '.')))
  | .type _ => none

namespace Stmt

def classKeys : Stmt → List Key
  | .classDef _ name _ _ => [.symbol name, .isClass name, .classScope name]
  | _ => []

def declaredKeys : Stmt → List Key
  | .classDef _ name _ methods =>
    .classScope name :: (methods.filterMap (·.routineName? (some name))).map .routineScope
  | .routine _ name _ _ _ _ => [.symbol name, .routineScope name]
  | .variable _ name _ _ | .constant _ name _ _ => [.symbol name]
  | _ => []

def Homed (t : SymbolTable) (scope : Option Nat) : Stmt → Prop
  | .classDef _ name _ _ => ∃ i, scope = some i ∧ t.classScope? name = some i
  | _ => True

theorem Homed.mono {t' : SymbolTable} {item : Stmt} (h : item.Homed t scope)
    (ht : ∀ name i, t.classScope? name = some i → t'.classScope? name = some i) :
    item.Homed t' scope := by
  cases item
  case classDef loc name fields methods =>
    obtain ⟨i, hs, hi⟩ := h
    exact ⟨i, hs, ht name i hi⟩
  all_goals trivial

end Stmt

theorem Typing.Key.item?_global (hn : Token.IsName name) :
    (Key.routineScope name).item? = some name := by
  have htake : name.toList.takeWhile (· ≠ '.') = name.toList := by
    rw [takeWhile_eq_self_iff]
    intro c hc
    simpa using fun e : c = '.' => hn.dot_notMem (e ▸ hc)
  rw [item?, htake, String.ofList_toList]

theorem Typing.Key.item?_member (hc : Token.IsName className) (name : String) :
    (Key.routineScope (fullName (some className) name)).item? = some className := by
  rw [item?, takeWhile_fullName hc.dot_notMem, String.ofList_toList]

theorem Stmt.exists_of_routineName? {item : Stmt} (h : item.routineName? className = some q) :
    ∃ name, q = fullName className name := by
  cases item <;> cases h
  exact ⟨_, rfl⟩

section Keys

variable {item : Stmt} {k : Key}

theorem Stmt.item?_classKeys (hk : k ∈ item.classKeys) :
    ∃ name, item.itemName? = some name ∧ k.item? = some name := by
  cases item <;> simp only [classKeys, mem_cons, not_mem_nil, or_false] at hk
  case classDef loc name fields methods =>
    rcases hk with rfl | rfl | rfl <;> exact ⟨name, rfl, rfl⟩

section

variable (hf : item.FormedItem Token.IsName)

include hf

theorem Stmt.item?_methodNames (hq : q ∈ item.methodNames) :
    ∃ name, item.itemName? = some name ∧ (Key.routineScope q).item? = some name := by
  cases item <;> simp only [methodNames, not_mem_nil] at hq
  case classDef loc name fields methods =>
    obtain ⟨m, -, hm⟩ := mem_filterMap.mp hq
    obtain ⟨n, rfl⟩ := exists_of_routineName? hm
    exact ⟨name, rfl, Key.item?_member hf.1 n⟩

theorem Stmt.item?_routineName?
    (hq : item.routineName? none = some q) :
    ∃ name, item.itemName? = some name ∧ (Key.routineScope q).item? = some name := by
  cases item <;> cases hq
  case routine loc name params returns isStatic body =>
    exact ⟨name, rfl, Key.item?_global hf.2.1⟩

theorem Stmt.item?_declaredKeys (hk : k ∈ item.declaredKeys) :
    ∃ name, item.itemName? = some name ∧ k.item? = some name := by
  cases item
  case classDef loc name fields methods =>
    rw [declaredKeys, mem_cons, List.mem_map] at hk
    rcases hk with rfl | ⟨q, hq, rfl⟩
    · exact ⟨name, rfl, rfl⟩
    · exact item?_methodNames hf hq
  case routine loc name params returns isStatic body =>
    simp only [declaredKeys, mem_cons, not_mem_nil, or_false] at hk
    rcases hk with rfl | rfl
    · exact ⟨name, rfl, rfl⟩
    · exact item?_routineName? hf rfl
  case «variable» loc name type init =>
    cases mem_singleton.mp hk
    exact ⟨name, rfl, rfl⟩
  case constant loc name type value =>
    cases mem_singleton.mp hk
    exact ⟨name, rfl, rfl⟩
  all_goals cases hk

end

-- Items of different names have different keys, if they have different numbers.
theorem apart_of_names {items : Items} {own : Stmt → List Key} (ids : Stmt → List Nat)
    (hn : (items.filterMap Stmt.itemName?).Nodup)
    (hids : items.Pairwise fun x y => (ids x).Disjoint (ids y))
    (hown : ∀ item ∈ items, ∀ k ∈ own item, (∃ id ∈ ids item, k = .type id) ∨
      ∃ name, item.itemName? = some name ∧ k.item? = some name) :
    items.Pairwise fun x y => (own x).Disjoint (own y) := by
  refine ((pairwise_filterMap.mp hn).and hids).imp_of_mem fun {x y} hx hy hxy k hkx hky => ?_
  rcases hown x hx k hkx with ⟨id, hid, rfl⟩ | ⟨name, hname, hk⟩
  · rcases hown y hy _ hky with ⟨id', hid', heq⟩ | ⟨name', -, hk'⟩
    · cases heq
      exact hxy.2 hid hid'
    · cases hk'
  · rcases hown y hy k hky with ⟨id', -, rfl⟩ | ⟨name', hname', hk'⟩
    · cases hk
    · cases hk.symm.trans hk'
      exact hxy.1 name hname name hname' rfl

end Keys

namespace Typing

namespace Analysis

def collectClass (a : Analysis) : Stmt → Analysis
  | .classDef loc name _ _ => (a.declareClass name loc).1
  | _ => a

def collect (a : Analysis) (item : Stmt) : Analysis :=
  match item with
  | .classDef _ name _ _ => a.declareItem item (a.table.classScope? name)
  | _ => a.declareItem item none

theorem Spares.collectClass {a : Analysis} (ha : a.table.Headed) (item : Stmt) :
    Spares (· ∈ item.classKeys) a (a.collectClass item) := by
  cases item
  case classDef loc name fields methods =>
    exact .declareClass ha name loc (by simp [Stmt.classKeys]) (by simp [Stmt.classKeys])
      (by simp [Stmt.classKeys])
  all_goals exact .refl ha

theorem Spares.collect {a : Analysis} (ha : a.table.Headed) (item : Stmt) :
    Spares (· ∈ item.declaredKeys) a (a.collect item) := by
  cases item
  case classDef loc name fields methods =>
    simp only [Analysis.collect, Analysis.declareItem]
    split
    case h_1 => exact .refl ha
    case h_2 i hi =>
      have hhead := ha.classes name i hi
      have hscope : Key.classScope name ∈ (Stmt.classDef loc name fields methods).declaredKeys :=
        .head _
      have hfields := Spares.declareFields ha hhead hscope fields
      refine hfields.trans (.declareMethods hfields.headed (hfields.headers _ _ hhead) hscope ?_)
      intro m hm q hq
      exact .tail _ (mem_map_of_mem (mem_filterMap.mpr ⟨m, hm, hq⟩))
  case routine loc name params returns isStatic body =>
    simp only [Analysis.collect, Analysis.declareItem]
    exact .declareRoutine ha ha.global (.head _) (.tail _ (.head _))
  case «variable» loc name type init =>
    simp only [Analysis.collect, Analysis.declareItem]
    cases type
    case none => exact .declareIn ha ha.global _ (.head _)
    case some type =>
      have htype := Spares.typeOf (K := (· ∈ (Stmt.variable loc name type init).declaredKeys))
        ha type loc
      exact htype.trans (.declareIn htype.headed htype.headed.global _ (.head _))
  case constant loc name type value =>
    have htype := Spares.typeOf (K := (· ∈ (Stmt.constant loc name type value).declaredKeys))
      ha type loc
    exact htype.trans (.declareIn htype.headed htype.headed.global _ (.head _))
  all_goals exact .refl ha

variable {Q : Key → Prop} {R : Nat → Nat → Prop} {a b : Analysis}

theorem Jointly.collectClass (h : Twins Q R a b) (item : Stmt) (hq : ∀ k ∈ item.classKeys, Q k) :
    Jointly Q R a b (a.collectClass item) (b.collectClass item) := by
  cases item
  case classDef loc name fields methods => exact .declareClass h (hq _ (.head _)) loc
  all_goals exact (Together.refl h).jointly

theorem Jointly.collect (h : Twins Q R a b) (item : Stmt) (hk : ∀ name, Q (.isClass name))
    (hq : ∀ k ∈ item.declaredKeys, Q k) :
    Jointly Q R a b (a.collect item) (b.collect item) := by
  cases item
  case classDef loc name fields methods =>
    simp only [Analysis.collect, Analysis.declareItem]
    have hrel := h.classes name (hq _ (.head _))
    generalize a.table.classScope? name = x, b.table.classScope? name = y at hrel
    cases hrel
    case none => exact (Together.refl h).jointly
    case some i j hij =>
      have hfields := Together.declareFields hk h hij fields
      exact hfields.jointly.trans fun R' hR h => .declareMethods hk h name (hR i j hij) methods
  case routine loc name params returns isStatic body =>
    simp only [Analysis.collect, Analysis.declareItem]
    exact .declareRoutine hk h (.inr ⟨rfl, rfl, hq _ (.head _)⟩)
  case «variable» loc name type init =>
    simp only [Analysis.collect, Analysis.declareItem]
    cases type
    case none => exact (Together.declareOwned h (.inr ⟨rfl, rfl, hq _ (.head _)⟩)).jointly
    case some type =>
      obtain ⟨htype, hwritten⟩ := Together.typeOf h hk type loc
      simp only [htype]
      exact (hwritten.trans (.declareOwned hwritten.twins
        (.inr ⟨rfl, rfl, hq _ (.head _)⟩))).jointly
  case constant loc name type value =>
    obtain ⟨htype, hwritten⟩ := Together.typeOf h hk type loc
    simp only [Analysis.collect, Analysis.declareItem, htype]
    exact (hwritten.trans (.declareOwned hwritten.twins (.inr ⟨rfl, rfl, hq _ (.head _)⟩))).jointly
  all_goals exact (Together.refl h).jointly

end Analysis

section Bodies

variable {Q : Key → Prop} {R : Nat → Nat → Prop} {a b : Analysis}

theorem checkRoutine_together (hq : Wide Q) (h : Twins Q R a b)
    (hs : List.Forall₂ (fun i j => R i j ∨ (i = global ∧ j = global)) is js)
    {item : Stmt} (hr : ∀ q ∈ item.routineName? className, Q (.routineScope q)) :
    Together Q R a b (checkRoutine className is a item) (checkRoutine className js b item) := by
  cases item
  case routine loc name params returns isStatic body =>
    have hknown : a.table.isClass = b.table.isClass := funext fun n => h.known n (hq.known n)
    have hrel := h.routines _ (hr _ rfl)
    simp only [checkRoutine, resultType, hknown]
    generalize a.table.routineScope? (fullName className name) = x,
      b.table.routineScope? (fullName className name) = y at hrel
    cases hrel
    case none => exact .refl h
    case some i j hij =>
      have hbody := checkBody_together hq
        (p := ⟨fullName className name, resultType b.table returns,
          if isStatic then none else className, i :: is⟩)
        (q := ⟨fullName className name, resultType b.table returns,
          if isStatic then none else className, j :: js⟩)
        ⟨rfl, rfl, rfl, hij, .cons (.inl hij) hs⟩ h false body
      exact hbody.trans (.reportIf hbody.twins _ _ loc)
  all_goals exact .refl h

theorem checkField_together (hq : Wide Q) {p : Place} (hp : p.Pairs R q) (hij : R i j)
    (h : Twins Q R a b) (f : Field Expr) :
    Together Q R a b (checkField p i a f) (checkField q j b f) := by
  obtain ⟨name, type, init, isConst, loc⟩ := f
  cases init
  case none => exact .refl h
  case some init =>
    obtain ⟨hvalue, hinit⟩ := inferInitial_together h hq hp (some type) init
    simp only [checkField, hvalue, h.inScope?_eq hij]
    exact hinit.trans (.reportIf hinit.twins _ _ _)

theorem foldl_together {α : Type} {step step' : Analysis → α → Analysis} (xs : List α)
    (hstep : ∀ x ∈ xs, ∀ a b, Twins Q R a b → Together Q R a b (step a x) (step' b x))
    (h : Twins Q R a b) : Together Q R a b (xs.foldl step a) (xs.foldl step' b) := by
  induction xs generalizing a b
  case nil => exact .refl h
  case cons x xs ih =>
    rw [forall_mem_cons] at hstep
    have hfirst := hstep.1 a b h
    exact hfirst.trans (ih hstep.2 hfirst.twins)

theorem checkClass_together (hq : Wide Q) (h : Twins Q R a b) {item : Stmt}
    (hr : ∀ q ∈ item.methodNames, Q (.routineScope q)) :
    Together Q R a b (checkClass a item) (checkClass b item) := by
  cases item
  case classDef loc name fields methods =>
    have hrel := h.classes name (hq.classes name)
    simp only [checkClass]
    generalize a.table.classScope? name = x, b.table.classScope? name = y at hrel
    cases hrel
    case none => exact .refl h
    case some i j hij =>
      have hscopes : List.Forall₂
          (fun i j => R i j ∨ (i = global ∧ j = global))
          [i, global] [j, global] :=
        .cons (.inl hij) (.cons (.inr ⟨rfl, rfl⟩) .nil)
      have hfields := foldl_together fields (fun f _ a b h =>
        checkField_together hq (p := fieldPlace name i) (q := fieldPlace name j)
          ⟨rfl, rfl, rfl, hij, hscopes⟩ hij h f) h
      refine hfields.trans (foldl_together methods (fun m hm a b h =>
        checkRoutine_together hq h hscopes fun q hmq => ?_) hfields.twins)
      exact hr q (mem_filterMap.mpr ⟨m, hm, hmq⟩)
  all_goals exact .refl h

end Bodies

section Independent

variable {items : Items}

def Key.IsNamed : Key → Prop
  | .symbol _ | .isClass _ | .classScope _ => True
  | .routineScope _ | .type _ => False

variable {names : List String} {ids : List Nat} {k : Key}

theorem mem_keys (hk : k ∈ names.map Key.routineScope ++ ids.map Key.type) :
    (∃ id ∈ ids, k = .type id) ∨ ∃ q ∈ names, k = .routineScope q := by
  rcases mem_append.mp hk with hk | hk <;> obtain ⟨x, hx, rfl⟩ := List.mem_map.mp hk
  · exact .inr ⟨x, hx, rfl⟩
  · exact .inl ⟨x, hx, rfl⟩

theorem not_isNamed (hk : k ∈ names.map Key.routineScope ++ ids.map Key.type) : ¬ k.IsNamed := by
  rcases mem_keys hk with ⟨_, -, rfl⟩ | ⟨_, -, rfl⟩ <;> exact id

theorem Wide.of_named {Q : Key → Prop} (h : ∀ k : Key, k.IsNamed → Q k) : Wide Q :=
  ⟨fun _ => h _ trivial, fun _ => h _ trivial, fun _ => h _ trivial⟩

variable (hf : ∀ item ∈ items, item.FormedItem Token.IsName)
  (hn : (items.filterMap Stmt.itemName?).Nodup)

include hn

theorem independent_classes :
    Independent (fun _ => False) Stmt.classKeys collectClass items where
  spares := fun item _ _ ha => .collectClass ha.headed item
  joint := fun item _ _ _ _ h => .collectClass h item fun _ => .inl
  apart := apart_of_names (fun _ => []) hn
    (pairwise_of_forall fun _ _ => disjoint_nil_left _)
    fun _ _ _ hk => .inr (Stmt.item?_classKeys hk)
  common := fun _ _ _ _ h => h

include hf

theorem independent_declarations :
    Independent (fun k => ∃ name, k = .isClass name) Stmt.declaredKeys collect items where
  spares := fun item _ _ ha => .collect ha.headed item
  joint := fun item _ _ _ _ h => .collect h item (fun name => .inr ⟨name, rfl⟩) fun _ => .inl
  apart := apart_of_names (fun _ => []) hn
    (pairwise_of_forall fun _ _ => disjoint_nil_left _)
    fun item hitem _ hk => .inr (Stmt.item?_declaredKeys (hf item hitem) hk)
  common := by
    rintro item - k hk ⟨name, rfl⟩
    cases item <;> simp [Stmt.declaredKeys] at hk

omit hf in
theorem independent_bodies {step : Analysis → Stmt → Analysis} {names : Stmt → List String}
    {ids : Stmt → List Nat} (hids : (items.flatMap ids).Nodup)
    (hadv : ∀ (item : Stmt) (a : Analysis), ∃ es, a.Advances
      (fun i => ∃ q ∈ names item, a.table.routines[q]? = some i) (ids item) es (step a item))
    (hjoint : ∀ {item Q R a b}, Wide Q → Twins Q R a b → (∀ q ∈ names item, Q (.routineScope q)) →
      Together Q R a b (step a item) (step b item))
    (hown : ∀ item ∈ items, ∀ q ∈ names item,
      ∃ name, item.itemName? = some name ∧ (Key.routineScope q).item? = some name) :
    Independent Key.IsNamed
      (fun item => (names item).map .routineScope ++ (ids item).map .type) step items where
  spares := fun item _ a ha => by
    obtain ⟨es, hadv⟩ := hadv item a
    refine hadv.spares ha.headed ha.blocks (fun i hi => ?_) fun id hid => ?_
    · obtain ⟨q, hq, hi⟩ := hi
      exact ⟨q, ha.headed.routines q i hi, mem_append_left _ (mem_map_of_mem hq)⟩
    · exact mem_append_right _ (mem_map_of_mem hid)
  joint := fun _ _ _ _ _ h => (hjoint (.of_named fun _ => .inr) h
    fun _ hq => .inl (mem_append_left _ (mem_map_of_mem hq))).jointly
  apart := apart_of_names ids hn (nodup_flatMap.mp hids).2 fun item hitem k hk => by
    refine (mem_keys hk).imp_right ?_
    rintro ⟨q, hq, rfl⟩
    exact hown item hitem q hq
  common := fun _ _ _ => not_isNamed

theorem independent_methods (hids : (items.flatMap Stmt.classIds).Nodup) :
    Independent Key.IsNamed
      (fun item => item.methodNames.map .routineScope ++ item.classIds.map .type)
      checkClass items :=
  independent_bodies hn hids (fun _ a => ⟨_, checkClass_advances a fun q hq _ hi => ⟨q, hq, hi⟩⟩)
    (fun hq h => checkClass_together hq h) fun item hi _ => Stmt.item?_methodNames (hf item hi)

theorem independent_routines (hids : (items.flatMap Stmt.routineIds).Nodup) :
    Independent Key.IsNamed (fun item => (item.routineName? none).toList.map .routineScope ++
      item.routineIds.map .type) (checkRoutine none [global]) items :=
  independent_bodies hn hids
    (fun _ a => ⟨_, checkRoutine_advances none _ a fun q hq _ hi => ⟨q, mem_toList.mpr hq, hi⟩⟩)
    (fun hq h hr => checkRoutine_together hq h (.cons (.inr ⟨rfl, rfl⟩) .nil)
      fun q hm => hr q (mem_toList.mpr hm))
    fun item hi _ hq => Stmt.item?_routineName? (hf item hi) (mem_toList.mp hq)

end Independent

section Declarations

variable {items : Items} {a : Analysis}

theorem foldl_collectClass_classes (ha : a.table.Headed) (hi : a.table.classScope? name = some i) :
    (items.foldl collectClass a).table.classScope? name = some i := by
  induction items generalizing a
  case nil => exact hi
  case cons item items ih =>
    have hfirst := Spares.collectClass ha item
    exact ih hfirst.headed (hfirst.classes name i hi)

theorem foldl_classStep (ha : a.table.Headed) (hn : (items.filterMap Stmt.itemName?).Nodup)
    (hnew : ∀ name ∈ items.filterMap Stmt.itemName?,
      a.table.inScope? global name = none ∧ a.table.isClass name = false)
    (done : List (Option Nat)) :
    ∃ scopes, items.foldl classStep (a, done) =
        (items.foldl collectClass a, scopes.reverse ++ done) ∧ scopes.length = items.length ∧
      ∀ x ∈ items.zip scopes, x.1.Homed (items.foldl collectClass a).table x.2 := by
  induction items generalizing a done
  case nil => exact ⟨[], rfl, rfl, by simp⟩
  case cons item items ih =>
    -- The names of the other items stay new.
    have hfirst := Spares.collectClass ha item
    have hlater : ∀ name ∈ items.filterMap Stmt.itemName?,
        (a.collectClass item).table.inScope? global name = none ∧
          (a.collectClass item).table.isClass name = false := by
      intro name hname
      have hold := hnew name (mem_filterMap.mpr (by
        obtain ⟨x, hx, hxn⟩ := mem_filterMap.mp hname
        exact ⟨x, .tail _ hx, hxn⟩))
      have hother (k : Key) (hk : k.item? = some name) : k ∉ item.classKeys := by
        intro hmem
        obtain ⟨n, hn', hkn⟩ := Stmt.item?_classKeys hmem
        cases hk.symm.trans hkn
        rw [filterMap_cons_some hn', nodup_cons] at hn
        exact hn.1 hname
      exact ⟨(hfirst.look (.symbol name) (hother _ rfl)).trans hold.1,
        (hfirst.look (.isClass name) (hother _ rfl)).trans hold.2⟩
    have hrest : (items.filterMap Stmt.itemName?).Nodup :=
      hn.sublist ((sublist_cons_self item items).filterMap _)
    have hstep : ∃ scope, classStep (a, done) item = (a.collectClass item, scope :: done) ∧
        item.Homed (a.collectClass item).table scope := by
      cases item
      case classDef loc name fields methods =>
        obtain ⟨hfree, hclass⟩ := hnew name (by simp [Stmt.itemName?])
        refine ⟨some a.table.scopes.size, ?_, a.table.scopes.size, rfl, ?_⟩
        · simp [classStep, collectClass, declareClass, hfree]
        · have hnone : a.table.classes[name]? = none := by
            rw [isClass, Std.TreeMap.contains_eq_isSome_getElem?] at hclass
            exact not_isSome_iff_eq_none.mp (Bool.eq_false_iff.mp hclass)
          simp only [collectClass, declareClass, hfree, classScope?,
            newScope, size_insert, if_pos]
          exact (getElem?_insertIfNew_new hnone name _).trans (if_pos rfl)
      all_goals exact ⟨none, rfl, trivial⟩
    obtain ⟨scope, hstep, hhome⟩ := hstep
    obtain ⟨scopes, hfold, hlength, hhomes⟩ := ih hfirst.headed hrest hlater (scope :: done)
    refine ⟨scope :: scopes, ?_, by simp [hlength], ?_⟩
    · rw [foldl_cons, hstep, hfold]
      simp
    · rw [zip_cons_cons, forall_mem_cons]
      exact ⟨hhome.mono fun _ _ => foldl_collectClass_classes hfirst.headed, hhomes⟩

theorem foldl_declareItem (ha : a.table.Headed) {scopes : List (Option Nat)}
    (hl : scopes.length = items.length)
    (hs : ∀ x ∈ items.zip scopes, x.1.Homed a.table x.2) :
    (items.zip scopes).foldl (fun a x => a.declareItem x.1 x.2) a = items.foldl collect a := by
  induction items generalizing a scopes
  case nil => rfl
  case cons item items ih =>
    cases scopes
    case nil => cases hl
    case cons scope scopes =>
      rw [zip_cons_cons, forall_mem_cons] at hs
      have hstep : a.declareItem item scope = a.collect item := by
        cases item
        case classDef loc name fields methods =>
          obtain ⟨i, rfl, hclass⟩ : ∃ i, scope = some i ∧ a.table.classScope? name = some i := hs.1
          rw [collect, hclass]
        all_goals rfl
      have hfirst := Spares.collect ha item
      rw [zip_cons_cons, foldl_cons, foldl_cons, hstep]
      exact ih hfirst.headed (by simpa using hl) fun x hx => (hs.2 x hx).mono hfirst.classes

theorem headed_empty : empty.table.Headed := by
  refine ⟨rfl, fun name i hi => ?_, fun name i hi => ?_⟩
  · simp [Analysis.empty, SymbolTable.empty, classScope?] at hi
  · simp [Analysis.empty, SymbolTable.empty, routineScope?] at hi

theorem spares_builtIns :
    Spares (fun k => ∃ name ∈ builtIns, k = .symbol name) empty empty.declareBuiltIns :=
  .foldl (fun name hname _ ha hi => .declareIn ha hi _ ⟨name, hname, rfl⟩) headed_empty rfl

theorem idle_builtIns : empty.declareBuiltIns.Idle :=
  ⟨spares_builtIns.headed, rfl⟩

theorem new_builtIns (h : name ∉ builtIns) :
    empty.declareBuiltIns.table.inScope? global name = none ∧
      empty.declareBuiltIns.table.isClass name = false := by
  refine ⟨(spares_builtIns.look (.symbol name) ?_).trans rfl,
    (spares_builtIns.look (.isClass name) ?_).trans rfl⟩
  all_goals simp [h]

theorem declareItems_eq (hn : (items.filterMap Stmt.itemName?).Nodup)
    (hb : ∀ name ∈ items.filterMap Stmt.itemName?, name ∉ builtIns) :
    declareItems items = items.foldl collect (items.foldl collectClass empty.declareBuiltIns) := by
  obtain ⟨scopes, hfold, hlength, hhomes⟩ := foldl_classStep idle_builtIns.headed hn
    (fun name hname => new_builtIns (hb name hname)) []
  have hidle := (independent_classes hn).foldl_idle idle_builtIns
  rw [← foldl_declareItem hidle.headed hlength hhomes]
  simp only [declareItems, declareClasses_eq, hfold, append_nil, reverse_reverse]

end Declarations

section Main

variable {Q : Key → Prop} {R : Nat → Nat → Prop} {p q : Place} {a b : Analysis}

theorem checkGlobal_together (hq : Wide Q) (hp : p.Pairs R q) (h : Twins Q R a b) (name : String)
    (type : Option TypeName) (init : Option Expr) (loc : Location) :
    Together Q R a b (checkGlobal p a name type init loc) (checkGlobal q b name type init loc) := by
  simp only [checkGlobal, h.symbols name (hq.symbols name)]
  cases b.table.inScope? global name
  case none => exact .refl h
  case some symbol =>
    dsimp only
    split
    case isTrue =>
      cases init
      case none => exact .refl h
      case some init => exact (infer_together h hq hp init).2
    case isFalse =>
      cases init
      case none => exact .reportIf h _ _ loc
      case some init =>
        obtain ⟨hvalue, hinit⟩ := inferInitial_together h hq hp type init
        simp only [hvalue]
        cases type
        case none =>
          obtain ⟨htype, hfound⟩ := Together.variableType hinit.twins name
            (b.inferInitial q none init).1 loc
          simp only [htype]
          exact hinit.trans (hfound.trans
            (.of_problems (hfound.twins.retypeGlobal name _) rfl rfl))
        case some type =>
          have hvoid := Together.reportIf hinit.twins (symbol.type = .void) (.voidVariable name) loc
          exact hinit.trans (hvoid.trans (.reportIf hvoid.twins _ _ loc))

theorem checkItem_together (hq : Wide Q) (hp : p.Pairs R q) (h : Twins Q R a b) (item : Stmt) :
    Together Q R a b (checkItem p a item) (checkItem q b item) := by
  cases item
  case classDef | routine => exact .refl h
  case «variable» loc name type init => exact checkGlobal_together hq hp h name type init loc
  case constant loc name type value =>
    exact checkGlobal_together hq hp h name (some type) (some value) loc
  all_goals exact checkStmt_together hq hp h false _

theorem idle_checkMain (items : Items) (h : a.Idle) : (checkMain items a).Idle :=
  have hadv := checkItems_advances (mainPlace a) (mainStart a) items
  ⟨hadv.headed (h.headed.newScope .method toplevelName global), hadv.none h.blocks⟩

theorem foldl_checkItem (p : Place) (a : Analysis) (items : Items) :
    items.foldl (checkItem p) a = (items.filter Stmt.isStatement).foldl (checkItem p) a := by
  have hstep : (fun a item => if item.isStatement then checkItem p a item else a) =
      checkItem p := by
    funext a item
    cases item <;> rfl
  rw [foldl_filter, hstep]

theorem Place.Pairs.main (R : Nat → Nat → Prop) (a b : Analysis) :
    (mainPlace a).Pairs
      (fun i j => R i j ∨ (i = a.table.scopes.size ∧ j = b.table.scopes.size)) (mainPlace b) where
  routine := rfl
  returns := rfl
  receiver? := rfl
  home := .inr ⟨rfl, rfl⟩
  scopes := .cons (.inl (.inr ⟨rfl, rfl⟩)) (.cons (.inr ⟨rfl, rfl⟩) .nil)

theorem checkMain_jointly (hq : Wide Q) (h : Twins Q R a b) {items items' : Items}
    (hs : items.filter Stmt.isStatement = items'.filter Stmt.isStatement) :
    Jointly Q R a b (checkMain items a) (checkMain items' b) := by
  have hstart := h.newScope .method toplevelName global global
  have hmain := foldl_together (items'.filter Stmt.isStatement) (fun item _ _ _ h =>
    checkItem_together hq (.main R a b) h item) hstart
  rw [← hs, ← foldl_checkItem, hs, ← foldl_checkItem] at hmain
  exact ⟨_, fun _ _ => .inl, .trans (.of_problems hstart rfl rfl) hmain⟩

theorem checkMain_same {items items' : Items}
    (hs : items.filter Stmt.isStatement = items'.filter Stmt.isStatement) (h : Same a b) :
    Same (checkMain items a) (checkMain items' b) := by
  obtain ⟨R, -, hmain⟩ := checkMain_jointly (Q := fun _ => True)
    ⟨fun _ => trivial, fun _ => trivial, fun _ => trivial⟩ h.twins hs
  exact h.of_together hmain (idle_checkMain items h.left) (idle_checkMain items' h.right)

end Main

-- The order of definitions makes no difference to the check.
theorem checkItems_same (hf : ∀ item ∈ items, item.FormedItem Token.IsName)
    (hids : (idsIn items).Nodup) (hn : (items.filterMap Stmt.itemName?).Nodup)
    (hb : ∀ name ∈ items.filterMap Stmt.itemName?, name ∉ builtIns) (hp : items.Perm items')
    (hs : items.filter Stmt.isStatement = items'.filter Stmt.isStatement) :
    Same (checkItems items) (checkItems items') := by
  have hids := (idsIn_perm items).nodup_iff.mp hids
  have hnames := hp.filterMap Stmt.itemName?
  have hdeclared : Same (declareItems items) (declareItems items') := by
    rw [declareItems_eq hn hb, declareItems_eq (hnames.nodup_iff.mp hn)
      fun name hname => hb name (hnames.mem_iff.mpr hname)]
    exact (independent_declarations hf hn).foldl_perm hp
      ((independent_classes hn).foldl_perm hp (.refl idle_builtIns))
  have hclasses := (independent_methods hf hn hids.of_append_left.of_append_right).foldl_perm hp
    (checkMain_same hs hdeclared)
  exact (independent_routines hf hn hids.of_append_right).foldl_perm hp hclasses

end Typing
end Lumen
