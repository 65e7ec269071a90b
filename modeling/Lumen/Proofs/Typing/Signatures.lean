import Lumen.Proofs.Typing.Agreement
import Lumen.Proofs.Typing.Provenance

namespace Lumen

open Typing List Option SymbolTable

def Symbol.ofRoutine (loc : Location) (name : String) (params : List Param) (returns : TypeName)
    (isStatic : Bool) : Symbol where
  name := name
  type := Ty.ofName returns
  home := .global
  isConst := false
  kind := .routine ⟨params.map (Ty.ofName ·.type), Ty.ofName returns, isStatic, false⟩
  loc := loc

def Symbol.ofClass (loc : Location) (name : String) : Symbol :=
  ⟨name, .object name, .global, false, .classDef, loc⟩

variable {className : Option String} {name : String} {owner : Nat}

namespace SymbolTable

variable {t t' : SymbolTable}

theorem Grows.isClass (h : t.Grows t') (hc : t.isClass name) : t'.isClass name := by
  rw [SymbolTable.isClass, ← Std.TreeMap.isSome_getElem?_eq_contains] at hc ⊢
  obtain ⟨i, hi⟩ := isSome_iff_exists.mp hc
  simp [h.classes name i hi]

theorem Grows.writtenType (h : t.Grows t') {type : TypeName}
    (hk : writtenType t.isClass type = .ok (Ty.ofName type)) :
    writtenType t'.isClass type = .ok (Ty.ofName type) := by
  cases type <;> try exact hk
  case named name =>
    simp only [Typing.writtenType] at hk ⊢
    split at hk
    case isTrue hc => simp [h.isClass hc, Ty.ofName]
    case isFalse => cases hk

theorem addRoutine (symbol : Symbol) (hk : t.kindOf? owner = some kind) (hne : kind ≠ .method)
    (hfree : t.inScope? owner symbol.name = none) (hnone : t.routines[q]? = none) :
    t.Grows ((t.insert owner symbol).newScope .method q owner) ∧
      ((t.insert owner symbol).newScope .method q owner).routines[q]? = some t.scopes.size ∧
      ((t.insert owner symbol).newScope .method q owner).inScope? owner symbol.name =
        some { symbol with home := kind } := by
  have hnew := Grows.newScope (t.insert owner symbol) .method q owner
  refine ⟨(Grows.insert hk hne hfree).trans hnew, ?_, hnew.symbols _ _ _ ?_⟩
  · simp only [newScope, if_pos, size_insert]
    exact (getElem?_insertIfNew_new hnone q _).trans (if_pos rfl)
  · simp [inScope?_insert t hk]

theorem addClass (hk : t.kindOf? global = some .global) (loc : Location)
    (hfree : t.inScope? global name = none) (hnone : t.classes[name]? = none) :
    t.Grows ((t.insert global (.ofClass loc name)).newScope .classBody name global) ∧
      ((t.insert global (.ofClass loc name)).newScope .classBody name global).inScope? global name =
        some (.ofClass loc name) ∧
      ((t.insert global (.ofClass loc name)).newScope .classBody name global).classes[name]? =
        some t.scopes.size := by
  have hinsert : t.Grows (t.insert global (.ofClass loc name)) := .insert hk (by simp) hfree
  have hnew := Grows.newScope (t.insert global (.ofClass loc name)) .classBody name global
  refine ⟨hinsert.trans hnew, hnew.symbols _ _ _ ?_, ?_⟩
  · rw [inScope?_insert _ hk]
    simp [Symbol.ofClass]
  · simp only [newScope, if_pos, size_insert]
    exact (getElem?_insertIfNew_new hnone name _).trans (if_pos rfl)

end SymbolTable

structure RoutineDeclared (t : SymbolTable) (className : Option String) (loc : Location)
    (name : String) (params : List Param) (returns : TypeName) (isStatic : Bool) : Prop where
  symbol  : ∃ owner kind, t.owner? className = some owner ∧ t.kindOf? owner = some kind ∧
    t.inScope? owner name =
      some { Symbol.ofRoutine loc name params returns isStatic with home := kind }
  scope   : ∃ i s, t.routines[fullName className name]? = some i ∧ t.scopes[i]? = some s ∧
    ∀ c, Matches c s [] (Names.ofParams params).blocks
  result  : writtenType t.isClass returns = .ok (Ty.ofName returns)
  known   : ∀ p ∈ params, writtenType t.isClass p.type = .ok (Ty.ofName p.type) ∧
    Ty.ofName p.type ≠ .void
  nodup   : (params.map Param.name).Nodup

structure FieldDeclared (t : SymbolTable) (className : String) (f : Field Expr) : Prop where
  symbol : t.member? className f.name =
    some ⟨f.name, Ty.ofName f.type, .classBody, f.isConst, .field, f.loc⟩
  known  : writtenType t.isClass f.type = .ok (Ty.ofName f.type)

structure GlobalDeclared (t : SymbolTable) (d : Declaration) : Prop where
  symbol : t.inScope? global d.name =
    some ⟨d.name, (d.type.map Ty.ofName).getD .error, .global, d.isConst, .variable, d.loc⟩
  known  : ∀ type ∈ d.type, writtenType t.isClass type = .ok (Ty.ofName type)

structure ClassDeclared (t : SymbolTable) (loc : Location) (name : String) : Prop where
  symbol : t.inScope? global name = some (.ofClass loc name)
  scope  : ∃ i, t.classes[name]? = some i

def Stmt.RoutineDeclared (t : SymbolTable) (className : Option String) : Stmt → Prop
  | .routine loc name params returns isStatic _ =>
    Lumen.RoutineDeclared t className loc name params returns isStatic
  | _ => False

def Stmt.routineName? (className : Option String) : Stmt → Option String
  | .routine _ name _ _ _ _ => some (fullName className name)
  | _ => none

def Stmt.routineNames : Stmt → List String
  | .classDef _ name _ methods => methods.filterMap (·.routineName? (some name))
  | item => (item.routineName? none).toList

def Stmt.ClassKnown (t : SymbolTable) (scope : Option Nat) : Stmt → Prop
  | .classDef loc name _ _ => ClassDeclared t loc name ∧ t.classes[name]? = scope
  | _ => True

def Stmt.Declared (t : SymbolTable) : Stmt → Prop
  | .classDef loc name fields methods =>
    ClassDeclared t loc name ∧ (∀ f ∈ fields, FieldDeclared t name f) ∧
      ∀ m ∈ methods, m.RoutineDeclared t (some name)
  | .routine loc name params returns isStatic body =>
    (Stmt.routine loc name params returns isStatic body).RoutineDeclared t none
  | .variable loc name type init => GlobalDeclared t ⟨name, loc, type, init, false, false⟩
  | .constant loc name type value =>
    GlobalDeclared t ⟨name, loc, some type, some value, true, false⟩
  | _ => True

variable {params : List Param} {loc : Location} {item : Stmt}

section Grows

variable {t t' : SymbolTable} (hg : t.Grows t')

include hg

theorem RoutineDeclared.mono {returns : TypeName}
    (h : RoutineDeclared t className loc name params returns isStatic) :
    RoutineDeclared t' className loc name params returns isStatic where
  symbol :=
    have ⟨owner, kind, ho, hk, hs⟩ := h.symbol
    ⟨owner, kind, hg.owner? ho, hg.kinds hk, hg.symbols owner name _ hs⟩
  scope :=
    have ⟨i, s, hi, hs, hm⟩ := h.scope
    ⟨i, s, hg.routines _ i hi, hg.finished i s hs (hm ⟨[], t, ∅, []⟩).kind, hm⟩
  result := hg.writtenType h.result
  known p hp := ⟨hg.writtenType (h.known p hp).1, (h.known p hp).2⟩
  nodup := h.nodup

theorem FieldDeclared.mono {className : String} (h : FieldDeclared t className f) :
    FieldDeclared t' className f where
  symbol := by
    obtain ⟨i, hi, hs⟩ := bind_eq_some_iff.mp h.symbol
    exact bind_eq_some_iff.mpr ⟨i, hg.classes className i hi, hg.symbols i f.name _ hs⟩
  known := hg.writtenType h.known

theorem GlobalDeclared.mono (h : GlobalDeclared t d) : GlobalDeclared t' d where
  symbol := hg.symbols _ _ _ h.symbol
  known type ht := hg.writtenType (h.known type ht)

theorem ClassDeclared.mono (h : ClassDeclared t loc name) :
    ClassDeclared t' loc name where
  symbol := hg.symbols _ _ _ h.symbol
  scope := have ⟨i, hi⟩ := h.scope; ⟨i, hg.classes name i hi⟩

theorem Stmt.RoutineDeclared.mono (h : item.RoutineDeclared t className) :
    item.RoutineDeclared t' className := by
  cases item <;> try exact h.elim
  case routine => exact Lumen.RoutineDeclared.mono hg h

theorem Stmt.Declared.mono (h : item.Declared t) : item.Declared t' := by
  cases item <;> try trivial
  case classDef =>
    exact ⟨h.1.mono hg, fun f hf => (h.2.1 f hf).mono hg, fun m hm => (h.2.2 m hm).mono hg⟩
  case routine =>
    rw [Stmt.Declared] at h ⊢
    exact h.mono hg
  case «variable» => exact GlobalDeclared.mono hg h
  case constant => exact GlobalDeclared.mono hg h

theorem Stmt.ClassKnown.mono (h : item.ClassKnown t scope) : item.ClassKnown t' scope := by
  cases item <;> try trivial
  case classDef loc name fields methods =>
    obtain ⟨i, hi⟩ := h.1.scope
    exact ⟨h.1.mono hg, (hg.classes name i hi).trans (hi.symm.trans h.2)⟩

end Grows

theorem Stmt.ClassKnown.housed (h : item.ClassKnown t scope) : item.Housed t scope := by
  cases item <;> try trivial
  case classDef => exact fun i hi => h.2.trans hi

namespace Typing.Analysis

-- Whatever is declared, the problems stay.
section Problems

variable (a : Analysis)

theorem problems_declareIn (scope : Nat) (symbol : Symbol) :
    a.problems ⊆ (a.declareIn scope symbol).problems := by
  rw [declareIn]
  split
  · exact subset_cons_self _ _
  · exact List.Subset.refl _

theorem problems_reportIf (wrong : Bool) (cause : Cause) (loc : Location) :
    a.problems ⊆ (a.reportIf wrong cause loc).problems := by
  rw [reportIf]
  split
  · exact subset_cons_self _ _
  · exact List.Subset.refl _

theorem problems_declareParams (scope : Nat) (params : List Param) (types : List Ty) :
    a.problems ⊆ (a.declareParams scope params types).problems := by
  induction params generalizing a types
  case nil => exact List.Subset.refl _
  case cons p params ih =>
    cases types
    case nil => exact List.Subset.refl _
    case cons type types =>
      exact List.Subset.trans (a.problems_reportIf _ _ _)
        (List.Subset.trans (problems_declareIn _ scope _) (ih _ types))

end Problems

theorem Sound.of_paramTypes {a : Analysis} (hs : (a.paramTypes done params).2.Sound) :
    a.paramTypes done params = (done.reverse ++ params.map (Ty.ofName ·.type), a) ∧
      ∀ p ∈ params, writtenType a.table.isClass p.type = .ok (Ty.ofName p.type) := by
  induction params generalizing done a
  case nil => simp [paramTypes]
  case cons p params ih =>
    simp only [paramTypes] at hs ⊢
    obtain ⟨heq, hknown⟩ := ih hs
    rw [heq] at hs ⊢
    obtain ⟨htype, hwritten⟩ := hs.of_typeOf
    rw [htype] at hknown ⊢
    refine ⟨by simp, ?_⟩
    simpa using ⟨hwritten, by simpa using hknown⟩

structure Alters (scope : Nat) (a a' : Analysis) : Prop where
  classes  : a'.table.classes = a.table.classes
  routines : a'.table.routines = a.table.routines
  scopes   : ∀ i : Nat, i ≠ scope → a'.table.scopes[i]? = a.table.scopes[i]?

variable {scope : Nat}

theorem Alters.trans {a : Analysis} (h : a.Alters scope a') (h' : a'.Alters scope a'') :
    a.Alters scope a'' where
  classes := h'.classes.trans h.classes
  routines := h'.routines.trans h.routines
  scopes i hi := (h'.scopes i hi).trans (h.scopes i hi)

theorem Alters.insert (a : Analysis) (scope : Nat) (symbol : Symbol) :
    a.Alters scope { a with table := a.table.insert scope symbol } where
  classes := rfl
  routines := rfl
  scopes i hi := by simp [Ne.symm hi]

structure Sound.Params (a : Analysis) (scope : Nat) (s : Scope) (names : Names)
    (params : List Param) (a' : Analysis) : Prop where
  alters  : a.Alters scope a'
  filled  : ∃ s', a'.table.scopes[scope]? = some s' ∧
    ∀ c, Matches c s' [] (names.declareAll (params.map .ofParam)).blocks
  ne_void : ∀ p ∈ params, Ty.ofName p.type ≠ .void
  free    : ∀ p ∈ params, s.get? p.name = none
  nodup   : (params.map Param.name).Nodup

theorem Sound.of_declareParams {a : Analysis} {names : Names}
    (hscope : a.table.scopes[scope]? = some s) (hm : ∀ c, Matches c s [] names.blocks)
    (hs : (a.declareParams scope params (params.map (Ty.ofName ·.type))).Sound) :
    Sound.Params a scope s names params
      (a.declareParams scope params (params.map (Ty.ofName ·.type))) := by
  induction params generalizing a s names
  case nil => exact ⟨⟨rfl, rfl, fun _ _ => rfl⟩, ⟨s, hscope, hm⟩, by simp, by simp, by simp⟩
  case cons p params ih =>
    simp only [map_cons, declareParams] at hs ⊢
    have hs' := hs.of_subset (problems_declareParams _ scope params _)
    obtain ⟨hvoid, hsame⟩ := (hs'.of_subset (problems_declareIn _ scope _)).of_reportIf
      (by simp [Cause.kind])
    have hvoid' : Ty.ofName p.type ≠ .void := by simpa using hvoid
    rw [hvoid] at hs hs' ⊢
    obtain ⟨hfree, heq⟩ := hs'.of_declareIn
    rw [reportIf, if_neg Bool.false_ne_true] at heq hfree
    rw [inScope?_of_scope hscope] at hfree
    rw [reportIf, if_neg Bool.false_ne_true, heq] at hs ⊢
    have h := ih (s := s.insert ⟨p.name, Ty.ofName p.type, .method, false, .parameter, p.loc⟩)
      (by simp [hscope]) (fun c => (hm c).declare (d := .ofParam p) rfl (.of_type rfl)) hs
    refine ⟨(Alters.insert a scope _).trans h.alters, h.filled, ?_, ?_, ?_⟩
    · exact forall_mem_cons.mpr ⟨hvoid', h.ne_void⟩
    · refine forall_mem_cons.mpr ⟨hfree, fun q hq => ?_⟩
      have hq := h.free q hq
      rw [Scope.get?_insert] at hq
      split at hq
      · cases hq
      · exact hq
    · rw [map_cons, nodup_cons]
      refine ⟨fun hmem => ?_, h.nodup⟩
      obtain ⟨q, hq, hname⟩ := List.mem_map.mp hmem
      have hq := h.free q hq
      rw [Scope.get?_insert, if_pos hname.symm] at hq
      cases hq

structure Gathers (a : Analysis) (names : List String) (a' : Analysis) : Prop where
  grows : a.table.Grows a'.table
  free  : ∀ q ∈ names, a.table.routines[q]? = none
  taken : ∀ q ∈ names, (a'.table.routines[q]?).isSome
  nodup : names.Nodup

namespace Gathers

variable {a a' a'' : Analysis} {names more : List String}

theorem of_grows (h : a.table.Grows a'.table) : a.Gathers [] a' :=
  ⟨h, by simp, by simp, nodup_nil⟩

theorem refl (a : Analysis) : a.Gathers [] a :=
  .of_grows (.refl _)

theorem isSome_routines (h : a.Gathers names a') {q : String}
    (hq : (a.table.routines[q]?).isSome) : (a'.table.routines[q]?).isSome := by
  obtain ⟨i, hi⟩ := isSome_iff_exists.mp hq
  rw [h.grows.routines q i hi]
  rfl

theorem trans (h : a.Gathers names a') (h' : a'.Gathers more a'') :
    a.Gathers (names ++ more) a'' where
  grows := h.grows.trans h'.grows
  free q hq := by
    rcases mem_append.mp hq with hq | hq
    · exact h.free q hq
    · cases hi : a.table.routines[q]?
      case none => rfl
      case some i =>
        have hfree := h'.free q hq
        rw [h.grows.routines q i hi] at hfree
        cases hfree
  taken q hq := by
    rcases mem_append.mp hq with hq | hq
    · exact h'.isSome_routines (h.taken q hq)
    · exact h'.taken q hq
  nodup := by
    refine nodup_append.mpr ⟨h.nodup, h'.nodup, fun q hq r hr e => ?_⟩
    have htaken := h.taken q hq
    rw [e, h'.free r hr] at htaken
    cases htaken

theorem declareIn (hk : a.table.kindOf? i = some kind) (hne : kind ≠ .method)
    (hs : (a.declareIn i symbol).Sound) : a.Gathers [] (a.declareIn i symbol) ∧
      (a.declareIn i symbol).table.inScope? i symbol.name = some { symbol with home := kind } := by
  obtain ⟨hfree, heq⟩ := hs.of_declareIn
  rw [heq]
  exact ⟨.of_grows (.insert hk hne hfree), by simp [inScope?_insert _ hk]⟩

end Gathers

-- The parameters complete a routine whose symbol and scope `n` are there.
theorem Gathers.fill {a : Analysis} {returns : TypeName} (hg : a.table.Grows t)
    (hn : a.table.scopes.size ≤ n) (hfree : a.table.routines[fullName className name]? = none)
    (hroutine : t.routines[fullName className name]? = some n)
    (hsymbol : ∃ owner kind, t.owner? className = some owner ∧ t.kindOf? owner = some kind ∧ kind ≠
      .method ∧ t.inScope? owner name = some { Symbol.ofRoutine loc name params returns isStatic
      with home := kind })
    (hscope : t.scopes[n]? = some s) (hempty : ∀ c, Matches c s [] Names.empty.blocks)
    (hresult : writtenType a.table.isClass returns = .ok (Ty.ofName returns))
    (hknown : ∀ p ∈ params, writtenType a.table.isClass p.type = .ok (Ty.ofName p.type))
    (hs : (({ a with table := t } : Analysis).declareParams n params (params.map (Ty.ofName
      ·.type))).Sound) :
    a.Gathers [fullName className name]
        (({ a with table := t } : Analysis).declareParams n params
          (params.map (Ty.ofName ·.type))) ∧
      RoutineDeclared
        (({ a with table := t } : Analysis).declareParams n params
          (params.map (Ty.ofName ·.type))).table className loc name params returns isStatic := by
  have hparams := hs.of_declareParams hscope hempty
  obtain ⟨s', hs', hmatches⟩ := hparams.filled
  have ha := hparams.alters
  have hkindOf : t.kindOf? n = some .method :=
    (hempty ⟨[], t, ∅, []⟩).kind ▸ kindOf?_of_scope hscope
  have hgrows := hg.of_scopes hn ha.scopes ha.classes ha.routines
  generalize ({ a with table := t } : Analysis).declareParams n params
    (params.map (Ty.ofName ·.type)) = a' at *
  have hroutine' : a'.table.routines[fullName className name]? = some n := by
    rw [ha.routines]
    exact hroutine
  refine ⟨⟨hgrows, by simpa using hfree, ?_, nodup_singleton _⟩, ?_, ?_, ?_, ?_,
    hparams.nodup⟩
  · intro q hq
    rw [mem_singleton.mp hq, hroutine']
    rfl
  · obtain ⟨owner, kind, ho, hk, hne, hsym⟩ := hsymbol
    have hown : owner ≠ n := by
      rintro rfl
      exact hne (Option.some.inj (hk.symm.trans hkindOf))
    refine ⟨owner, kind, ?_, ?_, ?_⟩
    · cases className
      case none => exact ho
      case some className => exact (congrArg (·[className]?) ha.classes).trans ho
    · rw [kindOf?, ha.scopes owner hown]
      exact hk
    · rw [inScope?_congr (ha.scopes owner hown)]
      exact hsym
  · exact ⟨n, s', hroutine', hs', hmatches⟩
  · exact hgrows.writtenType hresult
  · exact fun p hp => ⟨hgrows.writtenType (hknown p hp), hparams.ne_void p hp⟩

section Items

variable {items : Items} (hf : ∀ item ∈ items, item.FormedItem Token.IsName) {a : Analysis}
  (h : a.Collected items)

include hf h

theorem Sound.of_declareRoutine (hd : DefinedIn items className item)
    (hi : item.FormedRoutine Token.IsName) (ho : a.table.owner? className = some owner)
    (hs : (a.declareRoutine className owner item).Sound) :
    a.Gathers (item.routineName? className).toList (a.declareRoutine className owner item) ∧
      item.RoutineDeclared (a.declareRoutine className owner item).table className := by
  cases item <;> try exact hi.elim
  case routine loc name params returns isStatic body =>
  obtain ⟨hn, hc⟩ := hd.formed hf
  have hkind := kindOf?_of_header? (h.headed.header?_owner ho)
  have hne : (className.elim (Scope.Kind.global, "<global>") (.classBody, ·)).1 ≠ .method := by
    cases className <;> simp
  simp only [declareRoutine] at hs ⊢
  split at hs
  case h_1 => exact absurd hs (Sound.not_report (by simp [Cause.kind]))
  case h_2 hfree =>
  -- Nothing is wrong with the written types, so that they change nothing.
  have hs₀ : ((a.typeOf returns loc).2.paramTypes [] params).2.Sound :=
    fun p hp => hs p (problems_declareParams _ _ params _ hp)
  obtain ⟨hparams, hknown⟩ := hs₀.of_paramTypes
  rw [hparams] at hs₀
  obtain ⟨hreturns, hresult⟩ := hs₀.of_typeOf
  rw [hreturns] at hparams hknown
  simp only [hreturns, hparams, reverse_nil, nil_append] at hs hfree ⊢
  have hnone := Collected.routine_free h hf hn hc ho hfree
  obtain ⟨hgrows, hroutine, hsymbol⟩ := addRoutine
    (Symbol.ofRoutine loc name params returns isStatic) hkind hne hfree hnone
  have hscope : ((a.table.insert owner (Symbol.ofRoutine loc name params returns isStatic)).newScope
      .method (fullName className name) owner).scopes[a.table.scopes.size]? =
        some (Scope.empty .method (fullName className name) (some owner)) := by
    rw [scopes_newScope, size_insert, if_pos rfl]
  exact Gathers.fill hgrows (Nat.le_refl _) hnone hroutine
    ⟨owner, _, hgrows.owner? ho, hgrows.kinds hkind, hne, hsymbol⟩
    hscope (fun c => .empty c _ _) hresult hknown hs

theorem Sound.of_declareMethods {className : String} {methods : List Stmt}
    (hd : ∀ m ∈ methods, DefinedIn items (some className) m)
    (hi : ∀ m ∈ methods, m.FormedRoutine Token.IsName)
    (ho : a.table.classes[className]? = some scope)
    (hs : (methods.foldl (fun a m => a.declareRoutine (some className) scope m) a).Sound) :
    a.Gathers (methods.filterMap (·.routineName? (some className)))
        (methods.foldl (fun a m => a.declareRoutine (some className) scope m) a) ∧
      ∀ m ∈ methods, m.RoutineDeclared
        (methods.foldl (fun a m => a.declareRoutine (some className) scope m) a).table
        (some className) := by
  induction methods generalizing a
  case nil => exact ⟨.refl a, by simp⟩
  case cons m methods ih =>
    rw [forall_mem_cons] at hd hi
    rw [foldl_cons] at hs ⊢
    have hfirst := declares_declareRoutine (a := a) hd.1 ho
    have hclass := hfirst.lasts.classes _ _ ho
    have hs' := (declares_declareMethods hd.2 hclass).sound hs
    obtain ⟨hg, hm⟩ := Sound.of_declareRoutine hf h hd.1 hi.1 ho hs'
    obtain ⟨hg', hm'⟩ := ih (hfirst.collected h) hd.2 hi.2 hclass hs
    refine ⟨?_, forall_mem_cons.mpr ⟨hm.mono hg'.grows, hm'⟩⟩
    cases hname : m.routineName? (some className)
    case none => simpa [hname] using hg.trans hg'
    case some q => simpa [hname] using hg.trans hg'

omit hf in
theorem Sound.of_declareFields {className : String} {all : List (Field Expr)}
    (hi : .classDef loc className all methods ∈ items) (hsub : fields ⊆ all)
    (ho : a.table.classes[className]? = some scope) (hs : (a.declareFields scope fields).Sound) :
    a.Gathers [] (a.declareFields scope fields) ∧
      ∀ f ∈ fields, FieldDeclared (a.declareFields scope fields).table className f := by
  induction fields generalizing a
  case nil => exact ⟨.refl a, by simp⟩
  case cons f fields ih =>
    obtain ⟨hmem, hrest⟩ := cons_subset.mp hsub
    have hfirst : DeclaresAll items a (a.declareFields scope [f]) :=
      declares_declareFields hi (by simpa using hmem) ho
    have hs' := (declares_declareFields (a := a.declareFields scope [f]) hi hrest
      (hfirst.lasts.classes _ _ ho)).sound hs
    simp only [declareFields] at hs hs' ⊢
    obtain ⟨htype, hknown⟩ := (hs'.of_subset (problems_declareIn _ scope _)).of_typeOf
    simp only [htype] at hs hs' ⊢
    obtain ⟨hg, hsymbol⟩ := Gathers.declareIn
      (kindOf?_of_header? (h.headed.classes className scope ho)) (by simp) hs'
    simp only [declareFields, htype] at hfirst
    obtain ⟨hg', hd⟩ := ih (hfirst.collected h) hrest (hg.grows.classes _ _ ho) hs
    refine ⟨hg.trans hg', forall_mem_cons.mpr ⟨?_, hd⟩⟩
    have hmember := hg'.grows.symbols _ _ _ hsymbol
    have hclass := (hg.trans hg').grows.classes _ _ ho
    exact ⟨bind_eq_some_iff.mpr ⟨scope, hclass, hmember⟩,
      (hg.trans hg').grows.writtenType hknown⟩

-- Something declared at top level, apart from classes and routines.
omit hf in
theorem Sound.of_declareGlobal {d : Declaration}
    (hknown : ∀ t ∈ d.type, writtenType a.table.isClass t = .ok (Ty.ofName t))
    (hs : (a.declareIn global
      (Symbol.ofVariable d.name ((d.type.map Ty.ofName).getD .error) d.isConst d.loc)).Sound) :
    a.Gathers [] (a.declareIn global
        (Symbol.ofVariable d.name ((d.type.map Ty.ofName).getD .error) d.isConst d.loc)) ∧
      GlobalDeclared (a.declareIn global
        (Symbol.ofVariable d.name ((d.type.map Ty.ofName).getD .error) d.isConst
          d.loc)).table d := by
  obtain ⟨hg, hsymbol⟩ := Gathers.declareIn
    (kindOf?_of_header? h.headed.global) (by simp) hs
  exact ⟨hg, hsymbol, fun t ht => hg.grows.writtenType (hknown t ht)⟩

theorem Sound.of_declareItem {scope : Option Nat} (hi : item ∈ items)
    (hk : item.ClassKnown a.table scope) (hs : (a.declareItem item scope).Sound) :
    a.Gathers item.routineNames (a.declareItem item scope) ∧
      item.Declared (a.declareItem item scope).table := by
  cases item <;> try exact ⟨.refl a, trivial⟩
  case classDef loc name fields methods =>
    obtain ⟨hclass, hscope⟩ := hk
    obtain ⟨i, ho⟩ := hclass.scope
    obtain rfl : some i = scope := ho.symm.trans hscope
    have hd (m : Stmt) (hm : m ∈ methods) : DefinedIn items (some name) m :=
      ⟨loc, fields, methods, hi, hm⟩
    have hfields := declares_declareFields hi (List.Subset.refl fields) ho
    have ho' := hfields.lasts.classes _ _ ho
    simp only [declareItem] at hs ⊢
    obtain ⟨hg, hf₁⟩ := Sound.of_declareFields h hi (List.Subset.refl fields) ho
      ((declares_declareMethods hd ho').sound hs)
    obtain ⟨hg', hm⟩ := Sound.of_declareMethods hf (hfields.collected h) hd (hf _ hi).2.2 ho' hs
    exact ⟨hg.trans hg', hclass.mono (hg.trans hg').grows,
      fun f hmem => (hf₁ f hmem).mono hg'.grows, hm⟩
  case routine loc name params returns isStatic body =>
    have hd : DefinedIn items none (.routine loc name params returns isStatic body) := hi
    exact Sound.of_declareRoutine hf h hd (hf _ hi).2 rfl hs
  case «variable» loc name type init =>
    cases type
    case none =>
      exact Sound.of_declareGlobal (d := ⟨name, loc, none, init, false, false⟩) h (by simp) hs
    case some type =>
      simp only [declareItem] at hs ⊢
      obtain ⟨htype, hknown⟩ := (hs.of_subset (problems_declareIn _ _ _)).of_typeOf
      simp only [htype] at hs ⊢
      exact Sound.of_declareGlobal (d := ⟨name, loc, some type, init, false, false⟩) h
        (by simpa using hknown) hs
  case constant loc name type value =>
    simp only [declareItem] at hs ⊢
    obtain ⟨htype, hknown⟩ := (hs.of_subset (problems_declareIn _ _ _)).of_typeOf
    simp only [htype] at hs ⊢
    exact Sound.of_declareGlobal (d := ⟨name, loc, some type, some value, true, false⟩) h
      (by simpa using hknown) hs

theorem Sound.of_declareEach {pairs : List (Stmt × Option Nat)} (hi : ∀ x ∈ pairs, x.1 ∈ items)
    (hk : ∀ x ∈ pairs, x.1.ClassKnown a.table x.2)
    (hs : (pairs.foldl (fun a x => a.declareItem x.1 x.2) a).Sound) :
    a.Gathers (pairs.flatMap (·.1.routineNames))
        (pairs.foldl (fun a x => a.declareItem x.1 x.2) a) ∧
      ∀ x ∈ pairs, x.1.Declared (pairs.foldl (fun a x => a.declareItem x.1 x.2) a).table := by
  induction pairs generalizing a
  case nil => exact ⟨.refl a, by simp⟩
  case cons x pairs ih =>
    rw [forall_mem_cons] at hi hk
    rw [foldl_cons] at hs ⊢
    have hfirst := declares_declareItem (a := a) hi.1 hk.1.housed
    obtain ⟨hrest, -⟩ := declareEach_induct (P := fun _ => True) hi.2 (fun _ _ _ _ _ => trivial)
      (fun y hy => (hk.2 y hy).housed.mono hfirst.lasts) trivial
    obtain ⟨hg, hd⟩ := Sound.of_declareItem hf h hi.1 hk.1 (hrest.sound hs)
    obtain ⟨hg', hd'⟩ := ih (hfirst.collected h) hi.2 (fun y hy => (hk.2 y hy).mono hg.grows) hs
    exact ⟨hg.trans hg', forall_mem_cons.mpr ⟨hd.mono hg'.grows, hd'⟩⟩

-- Classes come first, and bring no routines.
omit hf in
theorem Sound.of_declareClass (hs : (a.declareClass name loc).1.Sound) :
    a.table.Grows (a.declareClass name loc).1.table ∧
      ClassDeclared (a.declareClass name loc).1.table loc name ∧
      (a.declareClass name loc).1.table.classes[name]? = (a.declareClass name loc).2 := by
  simp only [declareClass] at hs ⊢
  split at hs
  case h_1 => exact absurd hs (Sound.not_report (by simp [Cause.kind]))
  case h_2 hfree =>
  obtain ⟨hgrows, hsymbol, hclass⟩ := addClass
    (kindOf?_of_header? h.headed.global) loc hfree
    (Collected.class_free h hfree)
  exact ⟨hgrows, ⟨hsymbol, _, hclass⟩, hclass⟩

omit hf in
theorem Sound.of_classSteps (hl : list ⊆ items) (hs : (list.foldl classStep (a, done)).1.Sound) :
    a.table.Grows (list.foldl classStep (a, done)).1.table ∧ ∃ scopes,
      (list.foldl classStep (a, done)).2 = scopes.reverse ++ done ∧
      List.Forall₂ (fun item scope =>
        item.ClassKnown (list.foldl classStep (a, done)).1.table scope) list scopes := by
  induction list generalizing a done
  case nil => exact ⟨.refl _, [], rfl, .nil⟩
  case cons item list ih =>
    obtain ⟨hi, hrest⟩ := cons_subset.mp hl
    rw [foldl_cons] at hs ⊢
    -- What the first item does, and what it knows from then on.
    obtain ⟨a', scope, hstep, hfirst, hgrows, hknown⟩ : ∃ a' scope,
        classStep (a, done) item = (a', scope :: done) ∧ DeclaresAll items a a' ∧
          a.table.Grows a'.table ∧ item.ClassKnown a'.table scope := by
      cases item <;> try exact ⟨a, none, rfl, .refl, .refl _, trivial⟩
      case classDef loc name fields methods =>
        obtain ⟨hfirst, -⟩ := declares_declareClass hi h
        obtain ⟨-, -, hlater, -⟩ := declares_classSteps hrest
          ((a.declareClass name loc).2 :: done) (hfirst.collected h)
        obtain ⟨hgrows, hclass, hscope⟩ := Sound.of_declareClass h (hlater.sound hs)
        exact ⟨_, _, rfl, hfirst, hgrows, hclass, hscope⟩
    rw [hstep] at hs ⊢
    obtain ⟨hlater, scopes, hscopes, hall⟩ := ih (hfirst.collected h) hrest hs
    refine ⟨hgrows.trans hlater, scope :: scopes, by simp [hscopes], ?_⟩
    exact .cons (hknown.mono hlater) hall

end Items

structure SignaturesKnown (items : Items) (a : Analysis) : Prop where
  collected : a.table.Collected items True
  blocks    : a.blocks = []
  types     : a.types = ∅
  declared  : ∀ item ∈ items, item.Declared a.table
  nodup     : (items.flatMap Stmt.routineNames).Nodup
  taken     : ∀ q ∈ items.flatMap Stmt.routineNames, (a.table.routines[q]?).isSome

theorem SignaturesKnown.orderly (h : SignaturesKnown items a) : a.table.Orderly :=
  h.collected.orderly

theorem Sound.of_declareItems {items : Items} (hf : ∀ item ∈ items, item.FormedItem Token.IsName)
    (hs : (declareItems items).Sound) : SignaturesKnown items (declareItems items) := by
  have hstart : empty.declareBuiltIns.Collected items :=
    declares_builtIns.collected Collected.empty
  have hcollected : (declareItems items).table.Collected items True :=
    Collected.mono (collected_declareItems items) fun _ => hs
  obtain ⟨hblocks, htypes⟩ := (declares_declareItems items).untouched
  obtain ⟨-, scopes, hdone, hknown⟩ :=
    Sound.of_classSteps hstart (List.Subset.refl items) ((declares_items items).sound hs)
  obtain ⟨hlength, hpairs⟩ := forall₂_iff_zip.mp hknown
  have hmap : (items.zip scopes).map Prod.fst = items := map_fst_zip (Nat.le_of_eq hlength)
  have heq : declareItems items = (items.zip scopes).foldl (fun a x => a.declareItem x.1 x.2)
      (items.foldl classStep (empty.declareBuiltIns, [])).1 := by
    simp only [declareItems, declareClasses_eq, hdone, append_nil, reverse_reverse]
  obtain ⟨hg, hd⟩ := Sound.of_declareEach hf
    ((declares_classes items).collected Collected.empty)
    (fun x hx => (of_mem_zip hx).1) (fun x hx => hpairs hx) (heq ▸ hs)
  rw [← heq, ← flatMap_map, hmap] at hg
  rw [← heq] at hd
  refine ⟨hcollected, hblocks, htypes, fun item hi => ?_, hg.nodup, hg.taken⟩
  rw [← hmap] at hi
  obtain ⟨x, hx, rfl⟩ := List.mem_map.mp hi
  exact hd x hx

end Typing.Analysis

end Lumen
