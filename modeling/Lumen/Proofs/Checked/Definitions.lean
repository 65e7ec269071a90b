import Lumen.Proofs.Checked.Toplevel

namespace Lumen

open Typing Analysis SymbolTable
open List

def SymbolTable.outer (t : SymbolTable) : Option String → List Nat
  | none => [global]
  | some className => (t.classScope? className).toList ++ [global]

theorem SymbolTable.findSome?_outer (t : SymbolTable) (className : Option String) (name : String) :
    (t.outer className).findSome? (t.inScope? · name) =
      (className.bind (t.member? · name)).or (t.inScope? global name) := by
  cases className
  case none => simp [outer]
  case some className =>
    cases hs : t.classScope? className
    case none => simp [outer, member?, hs]
    case some i =>
      cases hi : t.inScope? i name <;> cases hg : t.inScope? global name <;>
        simp [outer, member?, hs, hi, hg]

namespace Checked

variable (c : Checked)

def bodySetting (className : Option String) (isStatic : Bool) (returns : TypeName) : Setting :=
  ⟨c, c.symbols, c.symbols.outer className, if isStatic then none else className,
    Ty.ofName returns⟩

def fieldSetting (className : String) : Setting :=
  ⟨c, c.symbols, c.symbols.outer (some className), some className, .void⟩

end Checked

def Stmt.checkedExits (t : SymbolTable) (className : Option String) : Stmt → List Exit
  | .routine _ name _ _ _ body =>
    if (t.routineScope? (fullName className name)).isSome then exitsIn false body else []
  | _ => []

def Stmt.checkedMethodExits (t : SymbolTable) : Stmt → List Exit
  | .classDef _ name _ methods =>
    if (t.classScope? name).isSome then methods.flatMap (·.checkedExits t (some name)) else []
  | _ => []

section Congr

variable {t t' : SymbolTable}

theorem Stmt.checkedExits_congr (h : t'.routines = t.routines) (className : Option String) :
    (fun item : Stmt => item.checkedExits t' className) = (·.checkedExits t className) := by
  funext item
  cases item <;> simp [checkedExits, routineScope?, h]

theorem Stmt.checkedMethodExits_congr (hc : t'.classes = t.classes)
    (hr : t'.routines = t.routines) :
    (fun item : Stmt => item.checkedMethodExits t') = (·.checkedMethodExits t) := by
  funext item
  cases item <;> simp [checkedMethodExits, classScope?, hc, checkedExits_congr hr]

end Congr

section Valid

variable (c : Checked)

def Stmt.ValidRoutine (className : Option String) : Stmt → Prop
  | .routine _ _ params returns isStatic body =>
    ValidBody (c.bodySetting className isStatic returns) (.ofParams params) false body
  | _ => True

structure ValidField (className : String) (f : Field Expr) : Prop where
  admits : ∀ e ∈ f.init, (c.fieldSetting className).Admits ⟨[], 0⟩ e
  stored : ∀ e ∈ f.init, (Ty.ofName f.type).assignable (c.typeOf e)

def Stmt.ValidClass : Stmt → Prop
  | .classDef _ name fields methods =>
    (∀ f ∈ fields, ValidField c name f) ∧ ∀ m ∈ methods, m.ValidRoutine c (some name)
  | _ => True

def Stmt.routineLookups (className : Option String) : Stmt → List Lookup
  | .routine _ name params returns isStatic body =>
    (evaluatedIn (.ofParams params) body).map
      ((c.bodySetting className isStatic returns).lookup (fullName className name))
  | _ => []

def fieldLookup (className : String) (f : Field Expr) : List Lookup :=
  f.init.toList.map fun e => (c.fieldSetting className).lookup
    (fullName (some className) constructorName) (⟨[], 0⟩, e)

def Stmt.classLookups : Stmt → List Lookup
  | .classDef _ name fields methods =>
    fields.flatMap (fieldLookup c name) ++ methods.flatMap (·.routineLookups c (some name))
  | _ => []

end Valid

def Stmt.classIds : Stmt → List Nat
  | .classDef _ _ fields methods => idsOfFields fields ++ idsIn methods
  | _ => []

def Stmt.routineIds : Stmt → List Nat
  | .routine _ _ _ _ _ body => idsIn body
  | _ => []

theorem Stmt.ids_eq (s : Stmt) : s.ids = s.mainIds ++ s.classIds ++ s.routineIds := by
  cases s <;> simp [Stmt.ids, Stmt.mainIds, Stmt.classIds, Stmt.routineIds]

def Stmt.methodNames : Stmt → List String
  | .classDef _ name _ methods => methods.filterMap (·.routineName? (some name))
  | _ => []

theorem Stmt.routineNames_eq (s : Stmt) :
    s.routineNames = s.methodNames ++ (s.routineName? none).toList := by
  cases s <;> simp [Stmt.routineNames, Stmt.methodNames, Stmt.routineName?]

namespace Typing

-- The state in which the bodies of definitions are checked, where those of the routines `done` have
-- been checked before. What they can see is as in the checked program.
structure Ready (c : Checked) (t : SymbolTable) (done : List String) (a : Analysis) : Prop where
  blocks   : a.blocks = []
  -- Only the scopes of routines are still to change.
  kept     : ∀ i : Nat, (∀ name : String, t.routines[name]? ≠ some i) →
    a.table.scopes[i]? = c.symbols.scopes[i]?
  classes  : a.table.classes = c.symbols.classes
  routines : ∀ (name : String) (i : Nat), t.routines[name]? = some i →
    a.table.routines[name]? = some i
  waiting  : ∀ (name : String) (i : Nat), t.routines[name]? = some i → name ∉ done →
    a.table.scopes[i]? = t.scopes[i]?
  finished : ∀ (name : String) (i : Nat), t.routines[name]? = some i → name ∈ done →
    ∃ s, a.table.scopes[i]? = some s ∧ s.Settled c

section Definitions

variable {c : Checked} {t : SymbolTable} {done : List String} {a a' : Analysis}

variable {i : Nat}

theorem Ready.scope_of_kind (h : Ready c t done a) (ho : t.Orderly) (hk : t.kindOf? i = some kind)
    (hne : kind ≠ .method) : a.table.scopes[i]? = c.symbols.scopes[i]? := by
  refine h.kept i fun name hi => ?_
  have hmethod := ho.routines name i hi
  rw [hk] at hmethod
  exact hne (Option.some.inj hmethod)

theorem Ready.global (h : Ready c t done a) (ho : t.Orderly) :
    a.table.scopes[global]? = c.symbols.scopes[global]? :=
  h.scope_of_kind ho ho.global (by simp)

theorem Ready.members (h : Ready c t done a) (ho : t.Orderly) (hi : t.kindOf? i = some .classBody) :
    a.table.scopes[i]? = c.symbols.scopes[i]? :=
  h.scope_of_kind ho hi (by simp)

variable {scope : Nat} {name : String}

theorem Ready.of_advances (h : Ready c t done a) (ho : t.Orderly)
    (hscope : t.routines[name]? = some scope) (ha : a.Advances (· = scope) ids es a')
    (hblocks : a'.blocks = []) (hs : a'.table.scopes[scope]? = some s) (hsettled : s.Settled c) :
    Ready c t (name :: done) a' where
  blocks := hblocks
  kept i hi := by
    refine (ha.scopes _ ?_).trans (h.kept i hi)
    rintro rfl
    exact hi name hscope
  classes := ha.classes.trans h.classes
  routines n i hi := ha.routines ▸ h.routines n i hi
  waiting n i hi hn := by
    rw [mem_cons, not_or] at hn
    refine (ha.scopes _ ?_).trans (h.waiting n i hi hn.2)
    rintro rfl
    exact hn.1 (ho.apart n name _ hi hscope)
  finished n i hi hn := by
    by_cases e : i = scope
    · subst e
      exact ⟨s, hs, hsettled⟩
    · have hne : n ≠ name := by
        rintro rfl
        exact e (Option.some.inj (hi.symm.trans hscope))
      obtain ⟨s', hs', hsettled'⟩ := h.finished n i hi (mem_of_ne_of_mem hne hn)
      exact ⟨s', (ha.scopes i e).trans hs', hsettled'⟩

variable {className : Option String}

theorem Ready.scope_eq (h : Ready c t done a) (ho : t.Orderly) (hc : c.symbols.classes = t.classes)
    (hi : i ∈ c.symbols.outer className) : a.table.scopes[i]? = c.symbols.scopes[i]? := by
  cases className
  case none =>
    rw [mem_singleton.mp hi]
    exact h.global ho
  case some className =>
    rcases mem_append.mp hi with hi | hi
    · rw [classScope?, hc, Option.mem_toList] at hi
      exact h.members ho (ho.classes className i hi)
    · rw [mem_singleton.mp hi]
      exact h.global ho

theorem notMem_outer (ho : t.Orderly) (hc : c.symbols.classes = t.classes)
    (hi : t.kindOf? i = some .method) : i ∉ c.symbols.outer className := by
  intro hmem
  have hglobal : i ≠ global := by
    rintro rfl
    cases hi.symm.trans ho.global
  cases className
  case none => exact hglobal (mem_singleton.mp hmem)
  case some className =>
    rcases mem_append.mp hmem with hmem | hmem
    · rw [classScope?, hc, Option.mem_toList] at hmem
      cases hi.symm.trans (ho.classes className i hmem)
    · exact hglobal (mem_singleton.mp hmem)

theorem Ready.isClass_eq (h : Ready c t done a) (hc : c.symbols.classes = t.classes) :
    a.table.isClass = t.isClass :=
  isClass_congr (h.classes.trans hc)

def bodyPlace (c : Checked) (className : Option String) (name : String) (returns : TypeName)
    (isStatic : Bool) (scope : Nat) : Place :=
  ⟨fullName className name, Ty.ofName returns, if isStatic then none else className,
    scope :: c.symbols.outer className⟩

theorem fits_bodyPlace (ho : t.Orderly) (hc : c.symbols.classes = t.classes)
    (hk : t.kindOf? scope = some .method) (className : Option String) (name : String)
    (returns : TypeName) (isStatic : Bool) : (c.bodySetting className isStatic returns).Fits
      (bodyPlace c className name returns isStatic scope) where
  scopes := rfl
  receiver? := rfl
  returns := rfl
  outer := notMem_outer ho hc hk
  classes n i hi := by
    rintro rfl
    have hi : t.classes[n]? = some i := hc ▸ hi
    cases (ho.classes n i hi).symm.trans hk

variable {params : List Param} {loc : Location} {returns : TypeName} {isStatic : Bool}

theorem Ready.agrees (h : Ready c t done a) (ho : t.Orderly) (hc : c.symbols.classes = t.classes)
    (hd : RoutineDeclared t className loc name params returns isStatic)
    (hscope : t.routines[fullName className name]? = some scope)
    (hnew : fullName className name ∉ done) :
    (c.bodySetting className isStatic returns).Agrees
      (bodyPlace c className name returns isStatic scope) a (.ofParams params) where
  home := by
    obtain ⟨i, s, hi, hs, hm⟩ := hd.scope
    cases hscope.symm.trans hi
    exact ⟨s, (h.waiting _ scope hscope hnew).trans hs, h.blocks ▸ hm c⟩
  outer i hi := h.scope_eq ho hc hi
  members n i hi := h.members ho (ho.classes n i (hc ▸ hi))
  classes := h.classes

theorem ofParams_tail (params : List Param) : (Names.ofParams params).blocks.tail = [] := by
  suffices h : ∀ (ds : List Declaration) (names : Names),
      (names.declareAll ds).blocks.tail = names.blocks.tail from h _ _
  intro ds
  induction ds
  case nil => exact fun _ => rfl
  case cons d ds ih => exact fun names => (ih _).trans (names.declare_tail d)

theorem checkRoutine_eq (h : Ready c t done a) (hc : c.symbols.classes = t.classes)
    (body : List Stmt) (hd : RoutineDeclared t className loc name params returns isStatic)
    (hscope : t.routines[fullName className name]? = some scope) :
    let item := Stmt.routine loc name params returns isStatic body
    let place := bodyPlace c className name returns isStatic scope
    (∃ wrong, checkRoutine className (c.symbols.outer className) a item =
        (checkBody place false a body).reportIf wrong (.missingReturn name (Ty.ofName returns))
          loc) ∧
      routineLookups className (c.symbols.outer className) a item =
        bodyLookups place false a body := by
  have hreturns : resultType a.table returns = Ty.ofName returns := by
    rw [resultType, h.isClass_eq hc, hd.result]
  simp only [checkRoutine, routineLookups, routineScope?, h.routines _ scope hscope, hreturns]
  exact ⟨⟨_, rfl⟩, rfl⟩

variable {item : Stmt}

theorem checkRoutine_valid (ho : t.Orderly) (hc : c.symbols.classes = t.classes)
    (h : Ready c t done a)
    (hf : ∀ name ∈ item.routineName? className, item.FormedRoutine Token.IsName)
    (hd : ∀ name ∈ item.routineName? className, item.RoutineDeclared t className)
    (hnew : ((item.routineName? className).toList ++ done).Nodup) (hn : item.routineIds.Nodup)
    (hs : (checkRoutine className (c.symbols.outer className) a item).Sound)
    (hk : (checkRoutine className (c.symbols.outer className) a item).Final c item.routineIds) :
    item.ValidRoutine c className ∧
      Ready c t ((item.routineName? className).toList ++ done)
        (checkRoutine className (c.symbols.outer className) a item) ∧
      routineLookups className (c.symbols.outer className) a item =
        item.routineLookups c className := by
  cases item <;> try exact ⟨trivial, h, rfl⟩
  case routine loc name params returns isStatic body =>
  have hd : RoutineDeclared t className loc name params returns isStatic := hd _ rfl
  obtain ⟨scope, _, hscope, _, _⟩ := hd.scope
  obtain ⟨⟨wrong, heq⟩, hlooks⟩ := checkRoutine_eq h hc body hd hscope
  rw [heq] at hs hk ⊢
  have hreport := Advances.reportIf (H := (· = scope))
    (checkBody (bodyPlace c className name returns isStatic scope) false a body) wrong
    (.missingReturn name (Ty.ofName returns)) loc
  have hfits := fits_bodyPlace ho hc (ho.routines _ scope hscope) className name returns isStatic
  have hbody : FormedBody Token.IsName body := (hf _ rfl).2.2.2
  obtain ⟨hvalid, hagrees, hlook⟩ := checkBody_valid hfits false a (.ofParams params) body hbody hn
    (h.agrees ho hc hd hscope (nodup_cons.mp hnew).1) (hs.of_advances hreport)
    (hk.of_advances hreport (by simp))
  have hadv := checkBody_advances (bodyPlace c className name returns isStatic scope) false a body
  obtain ⟨s, hs', hm⟩ := (hagrees.reportIf wrong (.missingReturn name (Ty.ofName returns)) loc).home
  have hblocks := hm.eq_nil ((Names.afterBody_tail _ body).trans (ofParams_tail params))
  rw [hblocks] at hm
  exact ⟨hvalid, h.of_advances ho hscope (hadv.next hreport) hblocks hs' hm.settled,
    hlooks.trans hlook⟩

variable {H : Nat → Prop}

theorem checkRoutine_advances (className : Option String) (outer : List Nat) (a : Analysis)
    (hH : ∀ name ∈ item.routineName? className, ∀ i, a.table.routines[name]? = some i → H i) :
    a.Advances H item.routineIds (item.checkedExits a.table className)
      (checkRoutine className outer a item) := by
  cases item <;> try exact .refl a
  case routine loc name params returns isStatic body =>
    simp only [checkRoutine]
    split
    case h_1 hscope =>
      rw [Stmt.checkedExits, hscope]
      exact (Advances.refl a).more (nil_subset _)
    case h_2 scope hscope =>
      rw [Stmt.checkedExits, hscope]
      refine .next (.widen (checkBody_advances _ false a body) ?_) (.reportIf _ _ _ loc)
      rintro i rfl
      exact hH _ rfl _ hscope

theorem checkRoutines_advances (className : Option String) (outer : List Nat) (a : Analysis)
    (items : List Stmt)
    (hH : ∀ item ∈ items, ∀ name ∈ item.routineName? className, ∀ i,
      a.table.routines[name]? = some i → H i) :
    a.Advances H (items.flatMap Stmt.routineIds) (items.flatMap (·.checkedExits a.table className))
      (items.foldl (checkRoutine className outer) a) := by
  induction items generalizing a
  case nil => exact .refl a
  case cons item items ih =>
    obtain ⟨hHi, hHr⟩ := forall_mem_cons.mp hH
    have hadv := checkRoutine_advances className outer a hHi
    have hrest := ih _ (hadv.routines ▸ hHr)
    rw [Stmt.checkedExits_congr hadv.routines] at hrest
    exact hadv.trans hrest

theorem Ready.perm (h : Ready c t done a) (hd : done.Perm done') : Ready c t done' a :=
  { h with
    waiting := fun name i hi hn => h.waiting name i hi fun hmem => hn (hd.subset hmem)
    finished := fun name i hi hn => h.finished name i hi (hd.symm.subset hn) }

-- The definitions are checked one by one.
theorem Ready.foldl {α : Type} {step : Analysis → α → Analysis} {look : Analysis → α → List Lookup}
    {ids : α → List Nat} {names : α → List String} {Valid : α → Prop} {looked : α → List Lookup}
    {xs : List α} (hadv : ∀ (xs : List α) (a : Analysis), ∃ es,
      a.Advances (fun _ => True) (xs.flatMap ids) es (xs.foldl step a))
    (hstep : ∀ x ∈ xs, ∀ done a, Ready c t done a → (names x ++ done).Nodup → (ids x).Nodup →
      (step a x).Sound → (step a x).Final c (ids x) →
        Valid x ∧ Ready c t (names x ++ done) (step a x) ∧ look a x = looked x)
    (h : Ready c t done a) (hnew : (xs.flatMap names ++ done).Nodup) (hn : (xs.flatMap ids).Nodup)
    (hs : (xs.foldl step a).Sound) (hk : (xs.foldl step a).Final c (xs.flatMap ids)) :
    (∀ x ∈ xs, Valid x) ∧ Ready c t (xs.flatMap names ++ done) (xs.foldl step a) ∧
      lookupsAlong step look a xs = xs.flatMap looked := by
  induction xs generalizing a done
  case nil => exact ⟨by simp, h, rfl⟩
  case cons x xs ih =>
    obtain ⟨hx, hxs⟩ := forall_mem_cons.mp hstep
    rw [flatMap_cons] at hn hk hnew ⊢
    rw [foldl_cons] at hs hk ⊢
    obtain ⟨es, hlater⟩ := hadv xs (step a x)
    have hperm : (names x ++ xs.flatMap names ++ done).Perm
        (xs.flatMap names ++ (names x ++ done)) := by
      rw [← append_assoc]
      exact perm_append_comm.append_right done
    have hnew' := hperm.nodup_iff.mp hnew
    obtain ⟨hvalid, hready, hlook⟩ := hx done a h hnew'.of_append_right hn.of_append_left
      (hs.of_advances hlater) (hk.before hlater hn)
    obtain ⟨hrest, hready, hlooks⟩ := ih hxs hready hnew' hn.of_append_right hs hk.right
    refine ⟨forall_mem_cons.mpr ⟨hvalid, hrest⟩, hready.perm hperm.symm, ?_⟩
    rw [lookupsAlong, flatMap_cons, hlook, hlooks]

theorem checkRoutines_valid (ho : t.Orderly) (hc : c.symbols.classes = t.classes)
    (h : Ready c t done a)
    (hf : ∀ item ∈ items, ∀ name ∈ item.routineName? className, item.FormedRoutine Token.IsName)
    (hd : ∀ item ∈ items, ∀ name ∈ item.routineName? className, item.RoutineDeclared t className)
    (hnew : (items.filterMap (·.routineName? className) ++ done).Nodup)
    (hn : (items.flatMap Stmt.routineIds).Nodup)
    (hs : (items.foldl (checkRoutine className (c.symbols.outer className)) a).Sound)
    (hk : (items.foldl (checkRoutine className (c.symbols.outer className)) a).Final c
      (items.flatMap Stmt.routineIds)) :
    (∀ item ∈ items, item.ValidRoutine c className) ∧
      Ready c t (items.filterMap (·.routineName? className) ++ done)
        (items.foldl (checkRoutine className (c.symbols.outer className)) a) ∧
      lookupsAlong (checkRoutine className (c.symbols.outer className))
          (routineLookups className (c.symbols.outer className)) a items =
        items.flatMap (·.routineLookups c className) := by
  rw [filterMap_eq_flatMap_toList] at hnew ⊢
  exact Ready.foldl
    (fun items a => ⟨_, checkRoutines_advances className _ a items fun _ _ _ _ _ _ => trivial⟩)
    (fun item hi done a h => checkRoutine_valid ho hc h (hf item hi) (hd item hi)) h hnew hn hs hk

def fieldPlace (className : String) (scope : Nat) : Place :=
  ⟨fullName (some className) constructorName, .void, some className, [scope, global]⟩

theorem checkField_advances (place : Place) (scope : Nat) (a : Analysis) (f : Field Expr) :
    a.Advances H (idsOfField f) [] (checkField place scope a f) := by
  obtain ⟨name, type, init, isConst, loc⟩ := f
  cases init
  case none => exact .refl a
  case some init => exact .next (.inferInitial place a (some type) init) (.reportIf _ _ _ _)

theorem checkFields_advances (place : Place) (scope : Nat) (a : Analysis)
    (fields : List (Field Expr)) :
    a.Advances H (idsOfFields fields) [] (fields.foldl (checkField place scope) a) := by
  induction fields generalizing a
  case nil => exact .refl a
  case cons f fields ih => exact (checkField_advances place scope a f).trans (ih _)

section

variable (h : Ready c t done a)

include h

theorem Ready.reportIf (wrong : Bool) (cause : Cause) (loc : Location) :
    Ready c t done (a.reportIf wrong cause loc) := by
  rw [Analysis.reportIf]
  split
  · exact ⟨h.blocks, h.kept, h.classes, h.routines, h.waiting, h.finished⟩
  · exact h

theorem Ready.record (f : Finding) : Ready c t done (a.record f) :=
  ⟨h.blocks, h.kept, h.classes, h.routines, h.waiting, h.finished⟩

theorem Ready.checkField : Ready c t done (checkField place scope a f) := by
  rw [Typing.checkField]
  split
  case h_1 => exact h
  case h_2 init _ => exact (h.record _).reportIf _ _ _

theorem Ready.field_environment {className : String} (ho : t.Orderly)
    (hc : c.symbols.classes = t.classes) (hscope : c.symbols.classes[className]? = some scope) :
    a.environment (fieldPlace className scope) =
      (c.fieldSetting className).environment ⟨[], 0⟩ := by
  have houter : c.symbols.outer (some className) = [scope, SymbolTable.global] := by
    simp [outer, classScope?, hscope]
  have hscopes : ∀ i ∈ [scope, SymbolTable.global], a.table.scopes[i]? = c.symbols.scopes[i]? :=
    fun i hi => h.scope_eq ho hc (houter ▸ hi)
  simp only [environment, fieldPlace, Setting.environment, Checked.fieldSetting, h.blocks,
    houter, Names.find?, findSome?_nil, findSome?_inScope?_congr hscopes,
    isClass_congr h.classes]
  rw [member?_congr h.classes fun n i hi => h.members ho (ho.classes n i (hc ▸ hi))]

end

theorem checkField_valid {className : String} {f : Field Expr} (ho : t.Orderly)
    (hset : t.Settles c.symbols) (hscope : t.classes[className]? = some scope)
    (h : Ready c t done a) (hf : f.Formed Token.IsName) (hd : FieldDeclared t className f)
    (hn : (idsOfField f).Nodup) (hs : (checkField (fieldPlace className scope) scope a f).Sound)
    (hk : (checkField (fieldPlace className scope) scope a f).Final c (idsOfField f)) :
    ValidField c className f := by
  obtain ⟨name, type, init, isConst, loc⟩ := f
  cases init
  case none => exact ⟨by simp, by simp⟩
  case some init =>
    have hsymbol : t.inScope? scope name =
        some ⟨name, Ty.ofName type, .classBody, isConst, .field, loc⟩ := by
      simpa [member?, classScope?, hscope] using hd.symbol
    have hkind := ho.classes className scope hscope
    have hfinal : a.table.scopes[scope]? = t.scopes[scope]? :=
      (h.members ho hkind).trans (hset.members scope hkind)
    have hinitial : a.inferInitial (fieldPlace className scope) (some type) init =
        a.infer (fieldPlace className scope) init := by
      simp only [Analysis.inferInitial, Analysis.infer]
      rw [Typing.inferInitial_eq]
      rintro w ⟨⟩
      simpa [environment, h.isClass_eq hset.classes] using hd.known
    simp only [Typing.checkField, checkStored, hinitial,
      inScope?_congr hfinal, hsymbol] at hs hk
    have hreport := Advances.reportIf (H := fun _ => False)
      (a.infer (fieldPlace className scope) init).2
      (!(Ty.ofName type).assignable (a.infer (fieldPlace className scope) init).1)
      (.stored (a.infer (fieldPlace className scope) init).1 (.field name) (Ty.ofName type))
        init.loc
    obtain ⟨hstored, hs'⟩ := hs.of_reportIf (by simp [Cause.kind])
    obtain ⟨hkeeps, htype⟩ := Final.infer (hk.of_advances hreport (by simp)) hf.2.2.1 hn hs'
    rw [h.field_environment ho hset.classes (hset.classes ▸ hscope)] at hkeeps
    refine ⟨?_, ?_⟩
    · rintro e ⟨⟩
      exact hkeeps
    · rintro e ⟨⟩
      simpa [htype] using hstored

theorem checkFields_valid {className : String} (ho : t.Orderly) (hset : t.Settles c.symbols)
    (hscope : t.classes[className]? = some scope) (h : Ready c t done a) (hnew : done.Nodup)
    (hf : ∀ f ∈ fields, f.Formed Token.IsName) (hd : ∀ f ∈ fields, FieldDeclared t className f)
    (hn : (idsOfFields fields).Nodup)
    (hs : (fields.foldl (checkField (fieldPlace className scope) scope) a).Sound)
    (hk : (fields.foldl (checkField (fieldPlace className scope) scope) a).Final c
      (idsOfFields fields)) :
    (∀ f ∈ fields, ValidField c className f) ∧
      Ready c t done (fields.foldl (checkField (fieldPlace className scope) scope) a) ∧
      lookupsAlong (checkField (fieldPlace className scope) scope)
          (fieldLookups (fieldPlace className scope)) a fields =
        fields.flatMap (fieldLookup c className) := by
  rw [idsOfFields_eq_flatMap] at hn hk
  have hnames : fields.flatMap (fun _ => []) ++ done = done := by simp
  rw [← hnames] at hnew ⊢
  refine Ready.foldl (fun fields a => ⟨_, idsOfFields_eq_flatMap fields ▸
    checkFields_advances (fieldPlace className scope) scope a fields⟩)
    (fun f hm done a h _ hn hs hk => ⟨checkField_valid ho hset hscope h (hf f hm) (hd f hm) hn hs
      hk, h.checkField, map_congr_left fun e _ => ?_⟩) h hnew hn hs hk
  rw [Analysis.lookup, h.field_environment ho hset.classes (hset.classes ▸ hscope)]
  rfl

theorem idsIn_eq_routineIds {W : String → Prop} (hf : ∀ m ∈ methods, m.FormedRoutine W) :
    idsIn methods = methods.flatMap Stmt.routineIds := by
  induction methods
  case nil => rfl
  case cons m methods ih =>
    obtain ⟨hfm, hfr⟩ := forall_mem_cons.mp hf
    have hm : m.ids = m.routineIds := by
      cases m <;> first | rfl | exact hfm.elim
    rw [idsIn, flatMap_cons, ih hfr, hm]

theorem routineIds_subset (methods : List Stmt) :
    methods.flatMap Stmt.routineIds ⊆ idsIn methods := by
  induction methods
  case nil => exact List.Subset.refl _
  case cons m methods ih =>
    have hm : m.routineIds ⊆ m.ids := by
      cases m <;> first | exact nil_subset _ | exact List.Subset.refl _
    rw [idsIn, flatMap_cons]
    exact append_subset.mpr ⟨subset_append_of_subset_left _ hm,
      subset_append_of_subset_right _ ih⟩

theorem checkClass_advances (a : Analysis)
    (hH : ∀ name ∈ item.methodNames, ∀ i, a.table.routines[name]? = some i → H i) :
    a.Advances H item.classIds (item.checkedMethodExits a.table) (checkClass a item) := by
  cases item <;> try exact .refl a
  case classDef loc name fields methods =>
    rw [Stmt.classIds, checkClass]
    split
    case h_1 hscope =>
      rw [Stmt.checkedMethodExits, hscope]
      exact (Advances.refl a).more (nil_subset _)
    case h_2 scope hscope =>
      have hfields := checkFields_advances (H := H) (fieldPlace name scope) scope a fields
      rw [Stmt.checkedMethodExits, hscope, ← Stmt.checkedExits_congr hfields.routines]
      refine hfields.trans (.more
        (checkRoutines_advances (some name) _ _ methods fun m hm q hq => ?_)
        (routineIds_subset methods))
      exact hfields.routines ▸ hH q (mem_filterMap.mpr ⟨m, hm, hq⟩)

theorem checkClasses_advances (a : Analysis) (items : Items)
    (hH : ∀ item ∈ items, ∀ name ∈ item.methodNames, ∀ i, a.table.routines[name]? = some i → H i) :
    a.Advances H (items.flatMap Stmt.classIds) (items.flatMap (·.checkedMethodExits a.table))
      (items.foldl checkClass a) := by
  induction items generalizing a
  case nil => exact .refl a
  case cons item items ih =>
    obtain ⟨hHi, hHr⟩ := forall_mem_cons.mp hH
    have hadv := checkClass_advances a hHi
    have hrest := ih _ (hadv.routines ▸ hHr)
    rw [Stmt.checkedMethodExits_congr hadv.classes hadv.routines] at hrest
    exact hadv.trans hrest

theorem checkClass_valid (ho : t.Orderly) (hset : t.Settles c.symbols) (h : Ready c t done a)
    (hf : item.FormedItem Token.IsName) (hd : item.Declared t)
    (hnew : (item.methodNames ++ done).Nodup) (hn : item.classIds.Nodup)
    (hs : (checkClass a item).Sound) (hk : (checkClass a item).Final c item.classIds) :
    item.ValidClass c ∧ Ready c t (item.methodNames ++ done) (checkClass a item) ∧
      classLookups a item = item.classLookups c := by
  cases item <;> try exact ⟨trivial, h, rfl⟩
  case classDef loc name fields methods =>
    obtain ⟨scope, hscope⟩ := hd.1.scope
    have hc : a.table.classes[name]? = some scope := by rw [h.classes, hset.classes, hscope]
    have hcheck : checkClass a (.classDef loc name fields methods) =
        methods.foldl (checkRoutine (some name) (c.symbols.outer (some name)))
          (fields.foldl (checkField (fieldPlace name scope) scope) a) := by
      simp only [checkClass, classScope?, hc, outer, ← h.classes]
      rfl
    have hlookups : classLookups a (.classDef loc name fields methods) =
        lookupsAlong (checkField (fieldPlace name scope) scope)
            (fieldLookups (fieldPlace name scope)) a fields ++
          lookupsAlong (checkRoutine (some name) (c.symbols.outer (some name)))
            (routineLookups (some name) (c.symbols.outer (some name)))
            (fields.foldl (checkField (fieldPlace name scope) scope) a) methods := by
      simp only [classLookups, classScope?, hc, outer, ← h.classes]
      rfl
    have hmethods : ∀ m ∈ methods, ∀ q ∈ m.routineName? (some name),
        m.FormedRoutine Token.IsName := fun m hm _ _ => hf.2.2 m hm
    rw [Stmt.classIds, idsIn_eq_routineIds hf.2.2] at hn hk
    rw [hcheck] at hs hk ⊢
    have hadv := checkRoutines_advances (H := fun _ => True) (some name)
      (c.symbols.outer (some name)) (fields.foldl (checkField (fieldPlace name scope) scope) a)
      methods fun _ _ _ _ _ _ => trivial
    obtain ⟨hvalid, hready, hlook⟩ := checkFields_valid ho hset hscope h
      hnew.of_append_right hf.2.1 hd.2.1 hn.of_append_left (hs.of_advances hadv)
      (hk.before hadv hn)
    obtain ⟨hrest, hready, hlooks⟩ := checkRoutines_valid ho hset.classes hready hmethods
      (fun m hm _ _ => hd.2.2 m hm) hnew hn.of_append_right hs hk.right
    refine ⟨⟨hvalid, hrest⟩, hready, ?_⟩
    rw [hlookups, hlook, hlooks, Stmt.classLookups]

theorem checkClasses_valid (ho : t.Orderly) (hset : t.Settles c.symbols) (h : Ready c t done a)
    (hf : ∀ item ∈ items, item.FormedItem Token.IsName) (hd : ∀ item ∈ items, item.Declared t)
    (hnew : (items.flatMap Stmt.methodNames ++ done).Nodup)
    (hn : (items.flatMap Stmt.classIds).Nodup) (hs : (items.foldl checkClass a).Sound)
    (hk : (items.foldl checkClass a).Final c (items.flatMap Stmt.classIds)) :
    (∀ item ∈ items, item.ValidClass c) ∧
      Ready c t (items.flatMap Stmt.methodNames ++ done) (items.foldl checkClass a) ∧
      lookupsAlong checkClass classLookups a items = items.flatMap (·.classLookups c) := by
  exact Ready.foldl (fun items a => ⟨_, checkClasses_advances a items fun _ _ _ _ _ _ => trivial⟩)
    (fun item hi done a h => checkClass_valid ho hset h (hf item hi) (hd item hi)) h hnew hn hs hk

end Definitions
end Typing
end Lumen
