import Lumen.Proofs.Typing.Signatures
import Lumen.Proofs.Typing.Views

namespace Lumen

open SymbolTable

namespace Typing

namespace Analysis

variable {K : Key → Prop} {a : Analysis}

namespace Spares

variable {i j : Nat} {name : String}

theorem newScope (ha : a.table.Headed) (kind : Scope.Kind) (name : String) (parent : Nat)
    (hm : kind = .method → K (.routineScope name))
    (hc : kind = .classBody → K (.isClass name) ∧ K (.classScope name)) :
    Spares K a { a with table := a.table.newScope kind name parent } where
  headed := ha.newScope kind name parent
  headers := (SymbolTable.Lasts.newScope a.table kind name parent).headers
  classes := fun n i hi => by
    simp only [SymbolTable.classScope?, SymbolTable.newScope] at hi ⊢
    split
    · exact getElem?_insertIfNew_of_some hi name _
    · exact hi
  blocks := rfl
  look := fun k hn => by
    have hold {i : Nat} {head : Scope.Kind × String} (hi : a.table.header? i = some head) :
        (a.table.newScope kind name parent).scopes[i]? = a.table.scopes[i]? := by
      rw [scopes_newScope, if_neg (Nat.ne_of_lt (lt_of_header? hi))]
    cases k
    case symbol n => exact inScope?_congr (hold ha.global) n
    case isClass n =>
      have hsame : (a.table.newScope kind name parent).isClass n = a.table.isClass n := by
        simp only [SymbolTable.isClass, SymbolTable.newScope]
        split
        case isFalse => rfl
        case isTrue hkind =>
          have hne : name ≠ n := fun heq => hn (heq ▸ (hc hkind).1)
          simp [Std.TreeMap.contains_insertIfNew, hne]
      exact hsame
    case classScope n =>
      have hsame : (a.table.newScope kind name parent).classScope? n = a.table.classScope? n := by
        simp only [SymbolTable.classScope?, SymbolTable.newScope]
        split
        case isFalse => rfl
        case isTrue hkind =>
          have hne : name ≠ n := fun heq => hn (heq ▸ (hc hkind).2)
          simp [Std.TreeMap.getElem?_insertIfNew, hne]
      exact bind_loose_congr hsame fun i hi => hold (ha.classes n i hi)
    case routineScope n =>
      have hsame : (a.table.newScope kind name parent).routineScope? n =
          a.table.routineScope? n := by
        simp only [SymbolTable.routineScope?, SymbolTable.newScope]
        split
        case isFalse => rfl
        case isTrue hkind =>
          have hne : name ≠ n := fun heq => hn (heq ▸ hm hkind)
          simp [Std.TreeMap.getElem?_insertIfNew, hne]
      exact bind_loose_congr hsame fun i hi => hold (ha.routines n i hi)
    case type => rfl

theorem foldl {α : Type} {step : Analysis → α → Analysis} {head : Scope.Kind × String} {xs : List α}
    (hstep : ∀ x ∈ xs, ∀ a : Analysis, a.table.Headed → a.table.header? i = some head →
      Spares K a (step a x))
    (ha : a.table.Headed) (hi : a.table.header? i = some head) : Spares K a (xs.foldl step a) := by
  induction xs generalizing a
  case nil => exact refl ha
  case cons x xs ih =>
    rw [List.forall_mem_cons] at hstep
    have hfirst := hstep.1 a ha hi
    exact hfirst.trans (ih hstep.2 hfirst.headed (hfirst.headers _ _ hi))

section

variable (ha : a.table.Headed)

include ha

theorem paramTypes (done : List Ty) (params : List Param) :
    Spares K a (a.paramTypes done params).2 := by
  induction params generalizing a done
  case nil => exact refl ha
  case cons p params ih =>
    have hfirst := typeOf (K := K) ha p.type p.loc
    exact hfirst.trans (ih hfirst.headed _)

theorem declareParams (hi : a.table.header? i = some (.method, name))
    (hk : K (.routineScope name)) (params : List Param) (types : List Ty) :
    Spares K a (a.declareParams i params types) := by
  induction params generalizing a types
  case nil => exact refl ha
  case cons p params ih =>
    cases types
    case nil => exact refl ha
    case cons type types =>
      have hvoid := reportIf (K := K) ha (type = .void) (.voidParameter p.name) p.loc
      have hparam := declareIn hvoid.headed (hvoid.headers _ _ hi)
        ⟨p.name, type, .method, false, .parameter, p.loc⟩ hk
      have hfirst := hvoid.trans hparam
      exact hfirst.trans (ih hfirst.headed (hfirst.headers _ _ hi) types)

theorem declareRoutine (ho : a.table.header? owner = some head)
    {returns : TypeName} (hk : K (.ofHeader head name))
    (hr : K (.routineScope (fullName className name))) :
    Spares K a (a.declareRoutine className owner
      (.routine loc name params returns isStatic body)) := by
  have hreturns := typeOf (K := K) ha returns loc
  have hbefore := hreturns.trans (paramTypes hreturns.headed [] params)
  simp only [Analysis.declareRoutine]
  split
  · exact hbefore.trans (report hbefore.headed _ loc)
  · have hsymbol := hbefore.trans (insert hbefore.headed (hbefore.headers _ _ ho)
      ⟨name, (a.typeOf returns loc).1, .global, false,
        .routine ⟨((a.typeOf returns loc).2.paramTypes [] params).1, (a.typeOf returns loc).1,
          isStatic, false⟩, loc⟩ hk)
    have hscope := hsymbol.trans (newScope hsymbol.headed .method (fullName className name) owner
      (fun _ => hr) (by simp))
    refine hscope.trans (declareParams hscope.headed ?_ hr params _)
    simp [header?_newScope]

theorem declareFields (hi : a.table.header? i = some (.classBody, className))
    (hk : K (.classScope className)) (fields : List (Field Expr)) :
    Spares K a (a.declareFields i fields) := by
  induction fields generalizing a
  case nil => exact refl ha
  case cons f fields ih =>
    have htype := typeOf (K := K) ha f.type f.loc
    have hfirst := htype.trans (declareIn htype.headed (htype.headers _ _ hi)
      ⟨f.name, (a.typeOf f.type f.loc).1, .classBody, f.isConst, .field, f.loc⟩ hk)
    exact hfirst.trans (ih hfirst.headed (hfirst.headers _ _ hi))

theorem declareMethods {className : String}
    (hi : a.table.header? i = some (.classBody, className)) (hk : K (.classScope className))
    {methods : List Stmt}
    (hr : ∀ method ∈ methods, ∀ name, method.routineName? (some className) = some name →
      K (.routineScope name)) :
    Spares K a (methods.foldl (fun a method => a.declareRoutine (some className) i method) a) := by
  refine foldl (fun method hmethod a ha hi => ?_) ha hi
  cases method
  case routine loc name params returns isStatic body =>
    exact declareRoutine ha hi hk (hr _ hmethod _ rfl)
  all_goals exact refl ha

theorem declareClass (name : String) (loc : Location)
    (hs : K (.symbol name)) (hk : K (.isClass name)) (hc : K (.classScope name)) :
    Spares K a (a.declareClass name loc).1 := by
  rw [Analysis.declareClass]
  split
  · exact report ha _ loc
  · have hsymbol := insert ha ha.global ⟨name, .object name, .global, false, .classDef, loc⟩ hs
    exact hsymbol.trans (newScope hsymbol.headed .classBody name global (by simp)
      fun _ => ⟨hk, hc⟩)

end

end Spares

def Jointly (Q : Key → Prop) (R : Nat → Nat → Prop) (a b a' b' : Analysis) : Prop :=
  ∃ R' : Nat → Nat → Prop, (∀ i j, R i j → R' i j) ∧ Together Q R' a b a' b'

def Owners (Q : Key → Prop) (R : Nat → Nat → Prop) (name : String) (i j : Nat) : Prop :=
  R i j ∨ (i = global ∧ j = global ∧ Q (.symbol name))

section Jointly

variable {Q : Key → Prop} {R : Nat → Nat → Prop} {b a' b' : Analysis}

theorem Together.jointly (h : Together Q R a b a' b') : Jointly Q R a b a' b' :=
  ⟨R, fun _ _ hij => hij, h⟩

theorem Jointly.trans (h : Jointly Q R a b a' b')
    (h' : ∀ R' : Nat → Nat → Prop, (∀ i j, R i j → R' i j) → Twins Q R' a' b' → Jointly Q R' a' b'
      a'' b'') :
    Jointly Q R a b a'' b'' := by
  obtain ⟨R', hR, hfirst⟩ := h
  obtain ⟨R'', hR', hsecond⟩ := h' R' hR hfirst.twins
  exact ⟨R'', fun i j hij => hR' i j (hR i j hij), hfirst.trans hsecond⟩

theorem Twins.inScope?_owners (h : Twins Q R a b) (ho : Owners Q R name i j) :
    a.table.inScope? i name = b.table.inScope? j name := by
  rcases ho with hij | ⟨rfl, rfl, hq⟩
  · exact h.inScope?_eq hij name
  · exact h.symbols name hq

theorem Twins.insert_owners (h : Twins Q R a b) (symbol : Symbol)
    (ho : Owners Q R symbol.name i j) :
    Twins Q R { a with table := a.table.insert i symbol }
      { b with table := b.table.insert j symbol } := by
  rcases ho with hij | ⟨rfl, rfl, -⟩
  · exact h.insert hij symbol
  · exact h.insertGlobal symbol

theorem Together.declareOwned (h : Twins Q R a b) {symbol : Symbol}
    (ho : Owners Q R symbol.name i j) :
    Together Q R a b (a.declareIn i symbol) (b.declareIn j symbol) := by
  rw [Analysis.declareIn, Analysis.declareIn, h.inScope?_owners ho]
  cases b.table.inScope? j symbol.name
  case none => exact .of_problems (h.insert_owners symbol ho) rfl rfl
  case some first => exact .report h _ _

section Signatures

variable (hq : ∀ name, Q (.isClass name))

include hq

theorem Together.paramTypes (h : Twins Q R a b) (done : List Ty) (params : List Param) :
    (a.paramTypes done params).1 = (b.paramTypes done params).1 ∧
      Together Q R a b (a.paramTypes done params).2 (b.paramTypes done params).2 := by
  induction params generalizing a b done
  case nil => exact ⟨rfl, .refl h⟩
  case cons p params ih =>
    obtain ⟨htype, hfirst⟩ := Together.typeOf h hq p.type p.loc
    obtain ⟨htypes, hrest⟩ := ih hfirst.twins ((b.typeOf p.type p.loc).1 :: done)
    simp only [Analysis.paramTypes, htype]
    exact ⟨htypes, hfirst.trans hrest⟩

omit hq in
theorem Together.declareParams (h : Twins Q R a b) (hij : R i j) (params : List Param)
    (types : List Ty) :
    Together Q R a b (a.declareParams i params types) (b.declareParams j params types) := by
  induction params generalizing a b types
  case nil => exact .refl h
  case cons p params ih =>
    cases types
    case nil => exact .refl h
    case cons type types =>
      have hvoid := Together.reportIf h (type = .void) (.voidParameter p.name) p.loc
      have hfirst := hvoid.trans (.declareIn hvoid.twins hij
        ⟨p.name, type, .method, false, .parameter, p.loc⟩)
      exact hfirst.trans (ih hfirst.twins types)

theorem Jointly.declareRoutine (h : Twins Q R a b) {returns : TypeName} (ho : Owners Q R name i j) :
    Jointly Q R a b (a.declareRoutine className i (.routine loc name params returns isStatic body))
      (b.declareRoutine className j (.routine loc name params returns isStatic body)) := by
  obtain ⟨hreturns, hfirst⟩ := Together.typeOf h hq returns loc
  obtain ⟨htypes, hsecond⟩ := Together.paramTypes hq hfirst.twins [] params
  have hbefore := hfirst.trans hsecond
  simp only [Analysis.declareRoutine, hreturns, htypes, hbefore.twins.inScope?_owners ho]
  cases ((b.typeOf returns loc).2.paramTypes [] params).2.table.inScope? j name
  case some first => exact (hbefore.trans (.report hbefore.twins _ loc)).jointly
  case none =>
    have hsymbol := hbefore.twins.insert_owners ⟨name, (b.typeOf returns loc).1, .global, false,
      .routine ⟨((b.typeOf returns loc).2.paramTypes [] params).1, (b.typeOf returns loc).1,
        isStatic, false⟩, loc⟩ ho
    have hscope := hsymbol.newScope .method (fullName className name) i j
    refine ⟨_, fun _ _ => .inl, hbefore.trans (.trans (.of_problems hscope rfl rfl)
      (.declareParams hscope (.inr ⟨?_, ?_⟩) params _))⟩
    · simp
    · simp

theorem Jointly.declareMethods (h : Twins Q R a b) (className : String) (hij : R i j)
    (methods : List Stmt) : Jointly Q R a b
      (methods.foldl (fun a method => a.declareRoutine (some className) i method) a)
      (methods.foldl (fun b method => b.declareRoutine (some className) j method) b) := by
  induction methods generalizing a b R
  case nil => exact (Together.refl h).jointly
  case cons method methods ih =>
    have hfirst : Jointly Q R a b (a.declareRoutine (some className) i method)
        (b.declareRoutine (some className) j method) := by
      cases method <;> try exact (Together.refl h).jointly
      case routine => exact .declareRoutine hq h (.inl hij)
    exact hfirst.trans fun R' hR h => ih h (hR i j hij)

theorem Together.declareFields (h : Twins Q R a b) (hij : R i j) (fields : List (Field Expr)) :
    Together Q R a b (a.declareFields i fields) (b.declareFields j fields) := by
  induction fields generalizing a b
  case nil => exact .refl h
  case cons f fields ih =>
    obtain ⟨htype, hwritten⟩ := Together.typeOf h hq f.type f.loc
    have hfirst := hwritten.trans (.declareIn hwritten.twins hij
      ⟨f.name, (b.typeOf f.type f.loc).1, .classBody, f.isConst, .field, f.loc⟩)
    simp only [Analysis.declareFields, htype]
    exact hfirst.trans (ih hfirst.twins)

end Signatures

theorem Jointly.declareClass (h : Twins Q R a b) (hq : Q (.symbol name)) (loc : Location) :
    Jointly Q R a b (a.declareClass name loc).1 (b.declareClass name loc).1 := by
  simp only [Analysis.declareClass, h.symbols name hq]
  cases b.table.inScope? global name
  case some first => exact (Together.report h _ loc).jointly
  case none =>
    have hsymbol := h.insertGlobal ⟨name, .object name, .global, false, .classDef, loc⟩
    exact ⟨_, fun _ _ => .inl, .of_problems
      (hsymbol.newScope .classBody name global global) rfl rfl⟩

end Jointly

end Analysis

end Typing
end Lumen
