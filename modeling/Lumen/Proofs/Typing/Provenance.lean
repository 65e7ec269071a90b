import Lumen.Proofs.Symbol.Orderly
import Lumen.Proofs.Token.Tiling
import Lumen.Proofs.Typing.Exits
import Lumen.Proofs.Typing.Valid
import Mathlib.Data.List.Forall2
import Mathlib.Logic.Relation

namespace Lumen

open Typing SymbolTable
open List hiding tail all head
open SymbolTable hiding empty insert
open Option

def DefinedIn (items : Items) (className : Option String) (item : Stmt) : Prop :=
  match className with
  | none => item ∈ items
  | some name => ∃ loc fields methods, .classDef loc name fields methods ∈ items ∧ item ∈ methods

theorem DefinedIn.formed {W : String → Prop} {returns : TypeName}
    (hf : ∀ item ∈ items, item.FormedItem W)
    (h : DefinedIn items className (.routine loc name params returns isStatic body)) :
    W name ∧ ∀ c ∈ className, W c := by
  cases className
  case none => exact ⟨(hf _ h).2.1, by simp⟩
  case some owner =>
    obtain ⟨_, _, _, hi, hm⟩ := h
    obtain ⟨howner, -, hmethods⟩ := hf _ hi
    exact ⟨(hmethods _ hm).1, by simpa using howner⟩

def Symbol.isDefined (s : Symbol) : Bool :=
  s.signature?.any fun signature => !signature.builtin

theorem Symbol.isDefined_iff {s : Symbol} :
    s.isDefined ↔ ∃ signature, s.kind = .routine signature ∧ signature.builtin = false := by
  cases hk : s.kind <;> simp [isDefined, signature?, hk]

namespace SymbolTable

def owner? (t : SymbolTable) : Option String → Option Nat
  | none => some global
  | some className => t.classes[className]?

def declared? (t : SymbolTable) (className : Option String) (name : String) : Option Symbol :=
  (t.owner? className).bind (t.inScope? · name)

variable {t t' : SymbolTable} {className : Option String} {owner : Nat}

theorem Lasts.owner? (h : t.Lasts t') (ho : t.owner? className = some owner) :
    t'.owner? className = some owner := by
  cases className
  case none => exact ho
  case some className => exact h.classes className owner ho

theorem Lasts.declared? (h : t.Lasts t') (hs : t.declared? className name = some symbol) :
    t'.declared? className name = some symbol := by
  obtain ⟨owner, ho, hs⟩ := bind_eq_some_iff.mp hs
  exact bind_eq_some_iff.mpr ⟨owner, h.owner? ho, h.symbols owner name symbol hs⟩

theorem Headed.header?_owner (h : t.Headed) (ho : t.owner? className = some owner) :
    t.header? owner = some (className.elim (.global, "<global>") (.classBody, ·)) := by
  cases className
  case none =>
    cases ho
    exact h.global
  case some className => exact h.classes className owner ho

theorem Headed.owner_inj (h : t.Headed) (ho : t.owner? className = some owner)
    (ho' : t.owner? className' = some owner) : className = className' := by
  have hhead := (h.header?_owner ho).symm.trans (h.header?_owner ho')
  cases className <;> cases className' <;> simp at hhead <;> simp [hhead]

end SymbolTable

def Ty.Reads (sound : Prop) (written : TypeName) (type : Ty) : Prop :=
  type = Ty.ofName written ∨ (type = .error ∧ ¬sound)

theorem Ty.Reads.mono {written : TypeName} (h : Reads sound written type) (hs : sound' → sound) :
    Reads sound' written type :=
  h.imp_right fun h => ⟨h.1, fun hs' => h.2 (hs hs')⟩

theorem Ty.Reads.eq_ofName {written : TypeName} (h : Reads sound written type) (hs : sound) :
    type = Ty.ofName written :=
  h.resolve_right fun h => h.2 hs

inductive Symbol.From (items : Items) (sound : Prop) (t : SymbolTable) (i : Nat) (s : Symbol) : Prop
  | builtIn (hi : i = global) (hn : s.name ∈ builtIns)
      (hk : s.kind = (builtIn s.name).kind) (ht : s.type = .void) (hl : s.loc = .none)
  | «variable» {item : Stmt} {d : Declaration} (hi : i = global)
      (hk : s.kind = .variable) (hitem : item ∈ items) (hd : item.declaration? = some d)
      (hn : d.name = s.name) (ht : ∀ written ∈ d.type, Ty.Reads sound written s.type)
  | parameter {p : Param} {q : String} (hi : t.header? i = some (.method, q))
      (hk : s.kind = .parameter) (ht : Ty.Reads sound p.type s.type)
  | field {loc : Location} {className : String} {fields : List (Field Expr)} {methods : List Stmt}
      {f : Field Expr} (hi : t.classes[className]? = some i) (hk : s.kind = .field)
      (hitem : .classDef loc className fields methods ∈ items) (hf : f ∈ fields)
      (hn : f.name = s.name) (ht : Ty.Reads sound f.type s.type)
  | classDef {fields : List (Field Expr)} {methods : List Stmt} (hi : i = global)
      (hk : s.kind = .classDef) (hitem : .classDef s.loc s.name fields methods ∈ items)
      (hc : s.name ∈ t.classes) (ht : s.type = .object s.name)
  | routine {className : Option String} {params : List Param} {returns : TypeName}
      {body : List Stmt} {types : List Ty} {isStatic : Bool}
      (hi : t.owner? className = some i)
      (hk : s.kind = .routine ⟨types, s.type, isStatic, false⟩)
      (hitem : DefinedIn items className (.routine s.loc s.name params returns isStatic body))
      (hl : types.length = params.length) (hr : fullName className s.name ∈ t.routines)
      (ht : Ty.Reads sound returns s.type)

theorem Symbol.From.mono {s : Symbol} (h : s.From items sound t i) (hl : t.Lasts t')
    (hs : sound' → sound) (home : Scope.Kind) : { s with home := home }.From items sound' t' i := by
  cases h
  case builtIn hi hn hk ht hl => exact .builtIn hi hn hk ht hl
  case «variable» hi hk hitem hd hn ht =>
    exact .variable hi hk hitem hd hn fun w hw => (ht w hw).mono hs
  case parameter hi hk ht => exact .parameter (hl.headers _ _ hi) hk (ht.mono hs)
  case field hi hk hitem hf hn ht =>
    exact .field (hl.classes _ _ hi) hk hitem hf hn (ht.mono hs)
  case classDef hi hk hitem hc ht => exact .classDef hi hk hitem (hl.mem_classes hc) ht
  case routine hi hk hitem hlen hr ht =>
    exact .routine (hl.owner? hi) hk hitem hlen (hl.mem_routines hr) (ht.mono hs)

-- What the scope of a definition is called. The definition is declared in the scope `owner`.
inductive Symbol.Houses (t : SymbolTable) (owner : Nat) (s : Symbol) : Scope.Kind → String → Prop
  | classDef (ho : owner = global) (hk : s.kind = .classDef) :
      Houses t owner s .classBody s.name
  | routine {className : Option String} (ho : t.owner? className = some owner)
      (hd : s.isDefined) : Houses t owner s .method (fullName className s.name)

structure SymbolTable.Collected (items : Items) (sound : Prop) (t : SymbolTable) : Prop where
  headed   : t.Headed
  ended    : ∀ (i : Nat) (s : Scope), t.scopes[i]? = some s → s.ended = []
  symbols  : ∀ (i : Nat) (name : String) (s : Symbol), t.inScope? i name = some s →
    s.name = name ∧ t.kindOf? i = some s.home ∧ s.From items sound t i
  -- A class or a routine has a scope only if its name stands for one.
  classes  : ∀ name ∈ t.classes, ∃ s, t.inScope? global name = some s ∧ s.kind = .classDef
  routines : ∀ q ∈ t.routines, ∃ className name s, q = fullName className name ∧
    t.declared? className name = some s ∧ s.isDefined

namespace SymbolTable.Collected

variable {items : Items} {sound : Prop} {t t' : SymbolTable} {className : Option String}
  {name : String} {i : Nat} {s : Symbol}

section

variable (h : t.Collected items sound)

include h

theorem kind_of_owner (ho : t.owner? className = some i) :
    ∃ kind, t.kindOf? i = some kind :=
  ⟨_, kindOf?_of_header? (h.headed.header?_owner ho)⟩

theorem classes_of_lasts (hl : t.Lasts t') (hn : name ∈ t.classes) :
    ∃ s, t'.inScope? global name = some s ∧ s.kind = .classDef := by
  obtain ⟨s, hs, hk⟩ := h.classes name hn
  exact ⟨s, hl.symbols _ _ _ hs, hk⟩

theorem routines_of_lasts (hl : t.Lasts t') (hq : q ∈ t.routines) :
    ∃ className name s, q = fullName className name ∧
      t'.declared? className name = some s ∧ s.isDefined := by
  obtain ⟨className, name, s, heq, hs, hd⟩ := h.routines q hq
  exact ⟨className, name, s, heq, hl.declared? hs, hd⟩

theorem mono (hs : sound' → sound) : t.Collected items sound' := by
  refine ⟨h.headed, h.ended, fun i name s hin => ?_, h.classes, h.routines⟩
  obtain ⟨hname, hhome, hfrom⟩ := h.symbols i name s hin
  exact ⟨hname, hhome, hfrom.mono (.refl t) hs s.home⟩

theorem symbols_insert (hl : (t.insert i s).Lasts t')
    (hfree : t.inScope? i s.name = none) (hs : s.From items sound t' i)
    (hf : (t.insert i s).inScope? j name = some found) :
    found.name = name ∧ t'.kindOf? j = some found.home ∧ found.From items sound t' j := by
  have hlasts := (Lasts.insert hfree).trans hl
  have hold (hf : t.inScope? j name = some found) :
      found.name = name ∧ t'.kindOf? j = some found.home ∧ found.From items sound t' j := by
    obtain ⟨hname, hhome, hfrom⟩ := h.symbols j name found hf
    exact ⟨hname, hlasts.kinds hhome, hfrom.mono hlasts id found.home⟩
  by_cases hij : i = j
  case neg =>
    rw [inScope?, scopes_insert, if_neg hij] at hf
    exact hold hf
  case pos =>
    subst hij
    obtain ⟨scope, hscope, -⟩ := bind_eq_some_iff.mp hf
    rw [scopes_insert, if_pos rfl] at hscope
    obtain ⟨old, hscope, -⟩ := map_eq_some_iff.mp hscope
    have hkind := kindOf?_of_scope hscope
    rw [inScope?_insert t hkind] at hf
    split at hf
    case isFalse => exact hold hf
    case isTrue hname =>
      cases hf
      exact ⟨hname.2, hlasts.kinds hkind, hs.mono (.refl _) id old.kind⟩

theorem ended_insert {j : Nat}
    (hs : (t.insert i s).scopes[j]? = some scope) : scope.ended = [] := by
  rw [scopes_insert] at hs
  split at hs
  case isFalse => exact h.ended j scope hs
  case isTrue =>
    obtain ⟨old, hold, rfl⟩ := map_eq_some_iff.mp hs
    exact h.ended j old hold

theorem insert (hfree : t.inScope? i s.name = none)
    (hs : s.From items sound t i) : (t.insert i s).Collected items sound := by
  have hlasts : t.Lasts (t.insert i s) := .insert hfree
  exact ⟨h.headed.insert i s, fun _ _ => h.ended_insert,
    fun _ _ _ => h.symbols_insert (.refl _) hfree (hs.mono hlasts id s.home),
    fun _ => h.classes_of_lasts hlasts, fun _ => h.routines_of_lasts hlasts⟩

theorem define {kind : Scope.Kind}
    (hfree : t.inScope? i s.name = none) (hh : s.Houses t i kind q)
    (hs : s.From items sound ((t.insert i s).newScope kind q i) i) :
    ((t.insert i s).newScope kind q i).Collected items sound := by
  have hnew := Lasts.newScope (t.insert i s) kind q i
  have hlasts : t.Lasts ((t.insert i s).newScope kind q i) := (Lasts.insert hfree).trans hnew
  have hmade (j : Nat) (scope : Scope)
      (hj : ((t.insert i s).newScope kind q i).scopes[j]? = some scope) :
      scope = Scope.empty kind q (some i) ∨ (t.insert i s).scopes[j]? = some scope := by
    rw [scopes_newScope] at hj
    split at hj
    · exact .inl (Option.some.inj hj).symm
    · exact .inr hj
  -- The definition is found under its name.
  have hfound {className : Option String} (ho : t.owner? className = some i) :
      ∃ kind', ((t.insert i s).newScope kind q i).inScope? i s.name =
        some { s with home := kind' } := by
    obtain ⟨kind', hk⟩ := h.kind_of_owner ho
    refine ⟨kind', hnew.symbols _ _ _ ?_⟩
    rw [inScope?_insert _ hk, if_pos ⟨rfl, rfl⟩]
  refine ⟨(h.headed.insert i s).newScope kind q i, fun j scope hj => ?_, fun j n found hf => ?_,
    fun n hn => ?_, fun r hr => ?_⟩
  · rcases hmade j scope hj with rfl | hj
    · rfl
    · exact h.ended_insert hj
  · obtain ⟨scope, hj, hget⟩ := bind_eq_some_iff.mp hf
    rcases hmade j scope hj with rfl | hj
    · simp at hget
    · exact h.symbols_insert hnew hfree hs (bind_eq_some_iff.mpr ⟨scope, hj, hget⟩)
  · cases hh
    case routine => exact h.classes_of_lasts hlasts hn
    case classDef ho hk =>
      subst ho
      rcases Std.TreeMap.mem_insertIfNew.mp hn with he | hn
      · obtain ⟨kind', hs'⟩ := hfound (rfl : t.owner? none = some global)
        exact Std.LawfulEqCmp.eq_of_compare he ▸ ⟨_, hs', hk⟩
      · exact h.classes_of_lasts hlasts hn
  · cases hh
    case classDef => exact h.routines_of_lasts hlasts hr
    case routine className ho hd =>
      rcases Std.TreeMap.mem_insertIfNew.mp hr with he | hr
      · obtain ⟨kind', hs'⟩ := hfound ho
        exact ⟨className, s.name, _, (Std.LawfulEqCmp.eq_of_compare he).symm,
          bind_eq_some_iff.mpr ⟨i, hlasts.owner? ho, hs'⟩, hd⟩
      · exact h.routines_of_lasts hlasts hr

end

theorem empty : SymbolTable.empty.Collected items sound := by
  have hscope {i : Nat} {s : Scope} (hs : SymbolTable.empty.scopes[i]? = some s) :
      s = Scope.empty .global "<global>" none := by
    cases i
    case zero => exact (Option.some.inj hs).symm
    case succ i => simp [SymbolTable.empty] at hs
  refine ⟨⟨rfl, fun name i hi => ?_, fun name i hi => ?_⟩, fun i s hs => ?_,
    fun i name s hs => ?_, fun name hn => ?_, fun q hq => ?_⟩
  · simp [SymbolTable.empty, classScope?] at hi
  · simp [SymbolTable.empty, routineScope?] at hi
  · rw [hscope hs]
    rfl
  · obtain ⟨scope, hi, hget⟩ := bind_eq_some_iff.mp hs
    rw [hscope hi] at hget
    simp at hget
  · simp [SymbolTable.empty] at hn
  · simp [SymbolTable.empty] at hq

section

variable (h : t.Collected items sound)

include h

theorem orderly : t.Orderly := by
  refine h.headed.orderly fun i scope hscope name s hs => ?_
  have hkind := kindOf?_of_scope hscope
  obtain ⟨hname, hhome, hfrom⟩ := h.symbols i name s ((inScope?_of_scope hscope name).trans hs)
  refine ⟨hname, Option.some.inj (hhome.symm.trans hkind), ?_⟩
  have hhead {head : Scope.Kind × String} (hi : t.header? i = some head) : scope.kind = head.1 :=
    Option.some.inj (hkind.symm.trans (kindOf?_of_header? hi))
  have hglobal (hi : i = global) : scope.kind = .global := hhead (hi ▸ h.headed.global)
  cases hfrom
  case builtIn hi _ hk _ _ => rw [hglobal hi, hk]; trivial
  case «variable» hi hk _ _ _ _ => rw [hglobal hi, hk]; trivial
  case parameter hi hk _ => rw [hhead hi, hk]; trivial
  case field hi hk _ _ _ _ => rw [hhead (h.headed.classes _ i hi), hk]; trivial
  case classDef hi hk _ _ _ => rw [hglobal hi, hk]; trivial
  case routine className _ _ _ _ _ hi hk _ _ _ _ =>
    rw [hhead (h.headed.header?_owner hi), hk]
    cases className <;> trivial

theorem routine (hs : t.declared? className name = some s)
    (hk : s.kind = .routine signature) :
    (className = none ∧ name ∈ builtIns ∧ s.kind = (builtIn name).kind ∧ s.loc = .none) ∨
    (fullName className name ∈ t.routines ∧ signature.builtin = false ∧
      ∃ params returns body, signature.params.length = params.length ∧
        DefinedIn items className
          (.routine s.loc name params returns signature.isStatic body)) := by
  obtain ⟨owner, ho, hs⟩ := bind_eq_some_iff.mp hs
  obtain ⟨rfl, -, hfrom⟩ := h.symbols owner name s hs
  cases hfrom <;> cases hk.symm.trans ‹s.kind = _›
  case builtIn hi hn hk' _ hl =>
    exact .inl ⟨h.headed.owner_inj ho (hi ▸ rfl), hn, hk', hl⟩
  case routine params returns body _ _ hi _ hitem hl hr _ =>
    cases h.headed.owner_inj ho hi
    exact .inr ⟨hr, rfl, params, returns, body, hl, hitem⟩

theorem field {className : String}
    (hs : t.member? className name = some s) (hk : s.kind = .field) :
    ∃ loc fields methods, .classDef loc className fields methods ∈ items ∧
      ∃ f ∈ fields, f.name = name := by
  obtain ⟨owner, ho, hs⟩ := bind_eq_some_iff.mp hs
  obtain ⟨rfl, -, hfrom⟩ := h.symbols owner name s hs
  cases hfrom <;> cases hk.symm.trans ‹s.kind = _›
  case field hi _ hitem hf hn _ =>
    cases (h.headed.classes _ _ ho).symm.trans (h.headed.classes _ _ hi)
    exact ⟨_, _, _, hitem, _, hf, hn⟩

theorem class_defined (hn : name ∈ t.classes) :
    ∃ loc fields methods, .classDef loc name fields methods ∈ items := by
  obtain ⟨s, hs, hk⟩ := h.classes name hn
  obtain ⟨rfl, -, hfrom⟩ := h.symbols global name s hs
  cases hfrom <;> cases hk.symm.trans ‹s.kind = _›
  case classDef hitem _ _ => exact ⟨_, _, _, hitem⟩

theorem class_free (hfree : t.inScope? global name = none) :
    t.classes[name]? = none := by
  refine Std.TreeMap.getElem?_eq_none fun hmem => ?_
  obtain ⟨s, hs, -⟩ := h.classes name hmem
  cases hfree.symm.trans hs

end

section Names

variable (h : t.Collected items sound) (hf : ∀ item ∈ items, item.FormedItem Token.IsName)
  (hn : Token.IsName name) (hc : ∀ c ∈ className, Token.IsName c)

include h hf hn hc

theorem of_mem_routines (hq : fullName className name ∈ t.routines) :
    ∃ s, t.declared? className name = some s ∧ s.isDefined := by
  obtain ⟨className', name', s, heq, hs, hd⟩ := h.routines _ hq
  obtain ⟨signature, hk, hb⟩ := Symbol.isDefined_iff.mp hd
  rcases h.routine hs hk with ⟨-, -, hk', -⟩ | ⟨-, -, params, returns, body, -, hitem⟩
  · cases hk.symm.trans hk'
    cases hb
  · obtain ⟨hn', hc'⟩ := hitem.formed hf
    obtain ⟨rfl, rfl⟩ := fullName_inj hn.dot_notMem hn'.dot_notMem
      (fun c hm => (hc c hm).dot_notMem) (fun c hm => (hc' c hm).dot_notMem) heq
    exact ⟨s, hs, hd⟩

theorem routine_free (ho : t.owner? className = some owner) (hfree : t.inScope? owner name = none) :
    t.routines[fullName className name]? = none := by
  refine Std.TreeMap.getElem?_eq_none fun hmem => ?_
  obtain ⟨s, hs, -⟩ := h.of_mem_routines hf hn hc hmem
  rw [declared?, ho, bind_some, hfree] at hs
  cases hs

-- The name of a routine has a scope if and only if it stands for a routine of the program.
theorem mem_routines_iff (hs : t.declared? className name = some s) :
    fullName className name ∈ t.routines ↔ s.isDefined := by
  refine ⟨fun hq => ?_, fun hd => ?_⟩
  · obtain ⟨found, hfound, hd⟩ := h.of_mem_routines hf hn hc hq
    cases hs.symm.trans hfound
    exact hd
  · obtain ⟨signature, hk, hb⟩ := Symbol.isDefined_iff.mp hd
    rcases h.routine hs hk with ⟨-, -, hk', -⟩ | ⟨hr, -⟩
    · cases hk.symm.trans hk'
      cases hb
    · exact hr

end Names

end SymbolTable.Collected

namespace Typing.Analysis

variable {items : Items} {a a' a'' : Analysis}

inductive Declares (items : Items) : Analysis → Analysis → Prop
  | report {a : Analysis} {cause : Cause} (h : cause.isOutside = false) (loc : Location) :
      Declares items a (a.report cause loc)
  | insert {a : Analysis} {i : Nat} {s : Symbol} (hfree : a.table.inScope? i s.name = none)
      (hs : s.From items a.Sound a.table i) :
      Declares items a { a with table := a.table.insert i s }
  | define {a : Analysis} {i : Nat} {s : Symbol} {kind : Scope.Kind} {q : String}
      (hfree : a.table.inScope? i s.name = none) (hh : s.Houses a.table i kind q)
      (hs : s.From items a.Sound ((a.table.insert i s).newScope kind q i) i) :
      Declares items a { a with table := (a.table.insert i s).newScope kind q i }

abbrev DeclaresAll (items : Items) : Analysis → Analysis → Prop :=
  Relation.ReflTransGen (Declares items)

def Collected (items : Items) (a : Analysis) : Prop :=
  a.table.Collected items a.Sound

section

variable (h : Declares items a a')

include h

theorem Declares.collected (ha : a.Collected items) :
    a'.Collected items := by
  cases h
  case report cause hcause loc =>
    have hall : a.table.Collected items (a.report cause loc).Sound :=
      ha.mono fun hs => hs.of_subset (subset_cons_self _ _)
    exact hall
  case insert hfree hs => exact Collected.insert ha hfree hs
  case define hfree hh hs => exact Collected.define ha hfree hh hs

theorem Declares.lasts : a.table.Lasts a'.table := by
  cases h
  case report => exact .refl _
  case insert hfree _ => exact .insert hfree
  case define hfree _ _ => exact (Lasts.insert hfree).trans (.newScope _ _ _ _)

theorem Declares.problems : a.problems ⊆ a'.problems := by
  cases h
  case report => exact subset_cons_self _ _
  all_goals exact List.Subset.refl _

theorem Declares.outside : a'.outside = a.outside := by
  cases h
  case report hcause loc => exact outside_report _ hcause loc
  all_goals rfl

end

namespace DeclaresAll

section

variable (h : DeclaresAll items a a')

include h

theorem trans (h' : DeclaresAll items a' a'') :
    DeclaresAll items a a'' :=
  Relation.ReflTransGen.trans h h'

theorem collected (ha : a.Collected items) : a'.Collected items := by
  induction h
  case refl => exact ha
  case tail _ hstep ih => exact hstep.collected ih

theorem lasts : a.table.Lasts a'.table := by
  induction h
  case refl => exact .refl _
  case tail _ hstep ih => exact ih.trans hstep.lasts

theorem problems : a.problems ⊆ a'.problems := by
  induction h
  case refl => exact List.Subset.refl _
  case tail _ hstep ih => exact List.Subset.trans ih hstep.problems

theorem untouched : a'.blocks = a.blocks ∧ a'.types = a.types := by
  induction h
  case refl => exact ⟨rfl, rfl⟩
  case tail _ hstep ih => cases hstep <;> exact ih

theorem sound (hs : a'.Sound) : a.Sound :=
  hs.of_subset h.problems

theorem outside : a'.outside = a.outside := by
  induction h
  case refl => rfl
  case tail _ hstep ih => exact hstep.outside.trans ih

end

end DeclaresAll

section Declaring

theorem declares_reportIf (a : Analysis) (wrong : Bool) {cause : Cause}
    (h : cause.isOutside = false) (loc : Location) :
    DeclaresAll items a (a.reportIf wrong cause loc) := by
  cases wrong
  case false => exact .refl
  case true => exact .single (.report h loc)

theorem declares_typeOf (a : Analysis) (type : TypeName) (loc : Location) :
    DeclaresAll items a (a.typeOf type loc).2 := by
  rw [typeOf]
  split
  case h_1 => exact .refl
  case h_2 cause h =>
    exact .single (.report (Cause.isOutside_eq_false (writtenType_strict _ type cause h)) loc)

theorem reads_typeOf (a : Analysis) (type : TypeName) (loc : Location) :
    Ty.Reads (a.typeOf type loc).2.Sound type (a.typeOf type loc).1 := by
  rw [typeOf]
  split
  case h_1 h => exact .inl (writtenType_eq h)
  case h_2 cause h =>
    exact .inr ⟨rfl, Sound.not_report
      (Cause.kind_ne_missingReturn (writtenType_strict _ type cause h))⟩

theorem declares_declareIn {s : Symbol} (hs : s.From items a.Sound a.table i) :
    DeclaresAll items a (a.declareIn i s) := by
  rw [declareIn]
  split
  case h_1 => exact .single (.report rfl _)
  case h_2 hfree => exact .single (.insert hfree hs)

theorem declares_paramTypes (done : List Ty) (params : List Param) :
    DeclaresAll items a (a.paramTypes done params).2 ∧ ∃ types,
      (a.paramTypes done params).1 = done.reverse ++ types ∧
      List.Forall₂ (fun p type => Ty.Reads (a.paramTypes done params).2.Sound p.type type)
        params types := by
  induction params generalizing a done
  case nil => exact ⟨.refl, [], by simp [paramTypes], .nil⟩
  case cons p params ih =>
    obtain ⟨hrest, types, heq, hall⟩ :=
      ih (a := (a.typeOf p.type p.loc).2) ((a.typeOf p.type p.loc).1 :: done)
    refine ⟨(a.declares_typeOf p.type p.loc).trans hrest, (a.typeOf p.type p.loc).1 :: types, ?_,
      .cons ((a.reads_typeOf p.type p.loc).mono hrest.sound) hall⟩
    rw [paramTypes, heq, reverse_cons, append_assoc]
    rfl

theorem declares_declareParams {i : Nat} {q : String} {params : List Param} {types : List Ty}
    (hi : a.table.header? i = some (.method, q))
    (h : List.Forall₂ (fun p type => Ty.Reads a.Sound p.type type) params types) :
    DeclaresAll items a (a.declareParams i params types) := by
  induction params generalizing a types
  case nil =>
    cases h
    exact .refl
  case cons p params ih =>
    cases h
    case cons type types htype hrest =>
      have hvoid : DeclaresAll items a (a.reportIf (type = .void) (.voidParameter p.name) p.loc) :=
        a.declares_reportIf _ rfl p.loc
      have hfirst := hvoid.trans (declares_declareIn (i := i)
        (s := ⟨p.name, type, .method, false, .parameter, p.loc⟩)
        (.parameter (hvoid.lasts.headers _ _ hi) rfl (htype.mono hvoid.sound)))
      exact hfirst.trans (ih (hfirst.lasts.headers _ _ hi)
        (hrest.imp fun _ _ h => h.mono hfirst.sound))

theorem declares_declareRoutine (hd : DefinedIn items className item)
    (ho : a.table.owner? className = some owner) :
    DeclaresAll items a (a.declareRoutine className owner item) := by
  cases item <;> try exact .refl
  case routine loc name params returns isStatic body =>
    obtain ⟨hparams, types, heq, hall⟩ :=
      declares_paramTypes (a := (a.typeOf returns loc).2) [] params
    have hbefore : DeclaresAll items a ((a.typeOf returns loc).2.paramTypes [] params).2 :=
      (a.declares_typeOf returns loc).trans hparams
    simp only [declareRoutine, heq, reverse_nil, nil_append]
    split
    case h_1 => exact hbefore.tail (.report rfl loc)
    case h_2 hfree =>
      set b := ((a.typeOf returns loc).2.paramTypes [] params).2
      let s : Symbol := ⟨name, (a.typeOf returns loc).1, .global, false,
        .routine ⟨types, (a.typeOf returns loc).1, isStatic, false⟩, loc⟩
      have howner := hbefore.lasts.owner? ho
      have hinsert : b.table.Lasts (b.table.insert owner s) := .insert hfree
      have hlasts := hinsert.trans (.newScope _ .method (fullName className name) owner)
      have hmem : fullName className name ∈ ((b.table.insert owner s).newScope .method
          (fullName className name) owner).routines := by
        simp [newScope]
      have hdefine := hbefore.tail (.define (s := s) hfree (.routine howner rfl)
        (.routine (hlasts.owner? howner) rfl hd hall.length_eq.symm hmem
          ((a.reads_typeOf returns loc).mono hparams.sound)))
      refine hdefine.trans (declares_declareParams (q := fullName className name) ?_
        (hall.imp fun _ _ h => h.mono id))
      simp [header?_newScope, s]

theorem lasts_declareRoutine (item : Stmt) (ho : a.table.owner? className = some owner) :
    a.table.Lasts (a.declareRoutine className owner item).table := by
  obtain ⟨items, hd⟩ : ∃ items, DefinedIn items className item := by
    cases className
    case none => exact ⟨[item], mem_singleton_self item⟩
    case some name => exact ⟨[.classDef .none name [] [item]], .none, [], [item], by simp⟩
  exact (declares_declareRoutine hd ho).lasts

theorem declares_declareFields (hi : .classDef loc name all methods ∈ items) (hf : fields ⊆ all)
    (hs : a.table.classes[name]? = some i) : DeclaresAll items a (a.declareFields i fields) := by
  induction fields generalizing a
  case nil => exact .refl
  case cons f fields ih =>
    obtain ⟨hfirst, hrest⟩ := cons_subset.mp hf
    have htype : DeclaresAll items a (a.typeOf f.type f.loc).2 := a.declares_typeOf f.type f.loc
    have hfield := htype.trans (declares_declareIn (i := i)
      (s := ⟨f.name, (a.typeOf f.type f.loc).1, .classBody, f.isConst, .field, f.loc⟩)
      (.field (htype.lasts.classes _ _ hs) rfl hi hfirst rfl (a.reads_typeOf f.type f.loc)))
    exact hfield.trans (ih hrest (hfield.lasts.classes _ _ hs))

end Declaring

-- A class that is new is known with its scope.
end Typing.Analysis

def Stmt.Housed (t : SymbolTable) (scope : Option Nat) : Stmt → Prop
  | .classDef _ name _ _ => ∀ i, scope = some i → t.classes[name]? = some i
  | _ => True

theorem Stmt.Housed.mono {item : Stmt} (h : item.Housed t scope) (ht : t.Lasts t') :
    item.Housed t' scope := by
  cases item
  case classDef loc name fields methods => exact fun i hi => ht.classes name i (h i hi)
  all_goals trivial

namespace Typing.Analysis

variable {items : Items} {a : Analysis}

theorem declares_declareMethods {name : String} {i : Nat} {methods : List Stmt}
    (hd : ∀ m ∈ methods, DefinedIn items (some name) m) (hs : a.table.classes[name]? = some i) :
    DeclaresAll items a (methods.foldl (fun a m => a.declareRoutine (some name) i m) a) := by
  induction methods generalizing a
  case nil => exact .refl
  case cons m methods ih =>
    rw [forall_mem_cons] at hd
    have hfirst := declares_declareRoutine (a := a) hd.1 hs
    exact hfirst.trans (ih hd.2 (hfirst.lasts.classes _ _ hs))

theorem declares_declareItem {item : Stmt} {scope : Option Nat} (hi : item ∈ items)
    (hs : item.Housed a.table scope) : DeclaresAll items a (a.declareItem item scope) := by
  -- A variable or constant at top level, with its type.
  have hglobal {d : Declaration} (hd : item.declaration? = some d) {written : TypeName}
      (ht : d.type = some written) (loc : Location) :
      DeclaresAll items a ((a.typeOf written loc).2.declareIn global
        (.ofVariable d.name (a.typeOf written loc).1 d.isConst loc)) := by
    refine (a.declares_typeOf written loc).trans
      (declares_declareIn (.variable rfl rfl hi hd rfl fun w hw => ?_))
    cases ht.symm.trans hw
    exact a.reads_typeOf written loc
  cases item <;> try exact .refl
  case classDef loc name fields methods =>
    cases scope
    case none => exact .refl
    case some scope =>
      have hfields := declares_declareFields hi (List.Subset.refl fields) (hs scope rfl)
      exact hfields.trans (declares_declareMethods (fun m hm => ⟨loc, fields, methods, hi, hm⟩)
        (hfields.lasts.classes _ _ (hs scope rfl)))
  case routine =>
    have hd : DefinedIn items none _ := hi
    exact declares_declareRoutine hd rfl
  case «variable» loc name type init =>
    cases type
    case none => exact declares_declareIn (.variable rfl rfl hi rfl rfl (by simp))
    case some type => exact hglobal rfl rfl loc
  case constant loc name type value => exact hglobal rfl rfl loc

def classStep (found : Analysis × List (Option Nat)) (item : Stmt) :
    Analysis × List (Option Nat) :=
  match item with
  | .classDef loc name _ _ =>
    ((found.1.declareClass name loc).1, (found.1.declareClass name loc).2 :: found.2)
  | _ => (found.1, none :: found.2)

theorem declareClasses_eq (a : Analysis) (items : Items) :
    a.declareClasses items =
      ((items.foldl classStep (a, [])).1, (items.foldl classStep (a, [])).2.reverse) :=
  rfl

theorem declares_declareClass (hi : .classDef loc name fields methods ∈ items)
    (h : a.Collected items) : DeclaresAll items a (a.declareClass name loc).1 ∧
      (Stmt.classDef loc name fields methods).Housed (a.declareClass name loc).1.table
        (a.declareClass name loc).2 := by
  rw [declareClass]
  split
  case h_1 => exact ⟨.single (.report rfl loc), fun _ hn => by cases hn⟩
  case h_2 hfree =>
    have hnew : a.table.classes[name]? = none := Collected.class_free h hfree
    refine ⟨.single (.define (s := ⟨name, .object name, .global, false, .classDef, loc⟩) hfree
      (.classDef rfl rfl) (.classDef rfl rfl hi ?_ rfl)), fun i hi => ?_⟩
    · simp [newScope]
    · cases hi
      simp only [newScope, if_pos, size_insert]
      exact (getElem?_insertIfNew_new hnew name _).trans (if_pos rfl)

theorem declares_classSteps (hl : list ⊆ items) (done : List (Option Nat)) (h : a.Collected items) :
    ∃ scopes, (list.foldl classStep (a, done)).2 = scopes.reverse ++ done ∧
      DeclaresAll items a (list.foldl classStep (a, done)).1 ∧
      ∀ x ∈ list.zip scopes, x.1.Housed (list.foldl classStep (a, done)).1.table x.2 := by
  induction list generalizing a done
  case nil => exact ⟨[], rfl, .refl, by simp⟩
  case cons item list ih =>
    obtain ⟨hfirst, hrest⟩ := cons_subset.mp hl
    -- The step for the first item, and the scope that it gives.
    obtain ⟨a', scope, hstep, hdeclares, hhoused⟩ : ∃ a' scope,
        classStep (a, done) item = (a', scope :: done) ∧ DeclaresAll items a a' ∧
          item.Housed a'.table scope := by
      cases item
      case classDef loc name fields methods =>
        obtain ⟨hdeclares, hhoused⟩ := declares_declareClass hfirst h
        exact ⟨_, _, rfl, hdeclares, hhoused⟩
      all_goals exact ⟨a, none, rfl, .refl, trivial⟩
    obtain ⟨scopes, hdone, hlater, hall⟩ := ih hrest (scope :: done) (hdeclares.collected h)
    refine ⟨scope :: scopes, ?_⟩
    rw [foldl_cons, hstep, hdone, zip_cons_cons, forall_mem_cons]
    exact ⟨by simp, hdeclares.trans hlater, hhoused.mono hlater.lasts, hall⟩

theorem declares_builtIns : DeclaresAll items empty empty.declareBuiltIns := by
  refine List.foldlRecOn (motive := DeclaresAll items empty) builtIns _ .refl
    fun a h name hn => h.trans (declares_declareIn (.builtIn rfl hn rfl rfl rfl))

theorem declareEach_induct {P : Analysis → Prop} {pairs : List (Stmt × Option Nat)}
    (hi : ∀ x ∈ pairs, x.1 ∈ items)
    (hstep : ∀ (a : Analysis), ∀ x ∈ pairs, x.1.Housed a.table x.2 → P a →
      P (a.declareItem x.1 x.2))
    (hhoused : ∀ x ∈ pairs, x.1.Housed a.table x.2) (hp : P a) :
    DeclaresAll items a (pairs.foldl (fun a x => a.declareItem x.1 x.2) a) ∧
      P (pairs.foldl (fun a x => a.declareItem x.1 x.2) a) := by
  induction pairs generalizing a
  case nil => exact ⟨.refl, hp⟩
  case cons x rest ih =>
    rw [forall_mem_cons] at hi hhoused
    have hfirst := declares_declareItem hi.1 hhoused.1
    obtain ⟨hrest, hp⟩ := ih hi.2 (fun a y hy => hstep a y (mem_cons_of_mem _ hy))
      (fun y hy => (hhoused.2 y hy).mono hfirst.lasts) (hstep a x mem_cons_self hhoused.1 hp)
    exact ⟨hfirst.trans hrest, hp⟩

theorem declares_classes (items : Items) :
    DeclaresAll items empty (items.foldl classStep (empty.declareBuiltIns, [])).1 := by
  obtain ⟨-, -, hclasses, -⟩ := declares_classSteps (List.Subset.refl items) []
    (declares_builtIns.collected Collected.empty)
  exact declares_builtIns.trans hclasses

-- A property of the state in which all classes are known is kept up to the end of the collection.
theorem declareItems_induct {P : Analysis → Prop}
    (hstart : P (items.foldl classStep (empty.declareBuiltIns, [])).1)
    (hstep : ∀ (a : Analysis), ∀ item ∈ items, ∀ scope, item.Housed a.table scope → P a →
      P (a.declareItem item scope)) :
    DeclaresAll items (items.foldl classStep (empty.declareBuiltIns, [])).1 (declareItems items) ∧
      P (declareItems items) := by
  obtain ⟨scopes, hdone, -, hhoused⟩ := declares_classSteps (List.Subset.refl items) []
    (declares_builtIns.collected Collected.empty)
  simp only [declareItems, declareClasses_eq, hdone, append_nil, reverse_reverse]
  exact declareEach_induct (fun x hx => (of_mem_zip hx).1)
    (fun a x hx => hstep a x.1 (of_mem_zip hx).1 x.2) hhoused hstart

theorem declares_items (items : Items) :
    DeclaresAll items (items.foldl classStep (empty.declareBuiltIns, [])).1 (declareItems items) :=
  (declareItems_induct (P := fun _ => True) trivial fun _ _ _ _ _ _ => trivial).1

theorem declares_declareItems (items : Items) : DeclaresAll items empty (declareItems items) :=
  (declares_classes items).trans (declares_items items)

theorem collected_declareItems (items : Items) : (declareItems items).Collected items :=
  (declares_declareItems items).collected Collected.empty

theorem outside_declareItems (items : Items) : (declareItems items).outside = [] :=
  (declares_declareItems items).outside

end Typing.Analysis
end Lumen
